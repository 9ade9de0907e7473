import ScriptShell.Proofs.Session.Requests

/-!
What a fragment records that is wrapped into an instance. The imports in front of it are pasted into the
exported class, so that they come first among its exports; a session drops as many exports as there are lines
in front. Each line is read as one import that hands on one entry, so that exactly these are dropped, and
the rest is what the fragment's own statements hand on.
-/
namespace ScriptShell

open Lexer Fragment ScriptShell.Parser

section Lines

theorem not_newline_of_word {word : List Char} (h : IsWord word) : '\n' ∉ word := by
  intro among
  have letter := h.letters _ among
  cases letter

/-- An entry made of words is written on one line. -/
theorem ImportEntry.Worded.line {entry : ImportEntry} (h : entry.Worded) : '\n' ∉ entry.render.toList := by
  obtain ⟨segments, -, words, path⟩ := h.path
  have front : '\n' ∉ entry.path.toList := by
    intro among
    rw [path] at among
    rcases mem_joinPath among with dot | ⟨segment, listed, own⟩
    · cases dot
    · exact not_newline_of_word (words segment listed) own
  have source := not_newline_of_word h.source
  have name := not_newline_of_word h.name
  unfold render
  split
  · simp [front]
  · split <;> simp [front, source, name]

/-- A preamble has as many lines as entries. -/
theorem count_renderLines {entries : List ImportEntry} (worded : ∀ entry ∈ entries, entry.Worded) :
    (Ledger.renderLines entries).toList.count '\n' = entries.length := by
  induction entries with
  | nil => rfl
  | cons entry rest ih =>
    rw [List.forall_mem_cons] at worded
    have own : entry.render.toList.count '\n' = 0 := List.count_eq_zero.mpr worded.1.line
    have end_ : "\n".toList.count '\n' = 1 := rfl
    rw [Ledger.renderLines, String.toList_append, String.toList_append, List.count_append, List.count_append,
      own, end_, ih worded.2, List.length_cons]
    omega

end Lines

/-- What is handed on for a line of a preamble: the import that the line is read as hands on this entry and
no other, under the name of the line's own entry. -/
structure CarriedAs (entry handed : ImportEntry) : Prop where
  line : ∃ own : TypedImport, ReadFrom entry.render (.imports own.decl) ∧ own.entries = [handed]
  name : handed.name = entry.name
  source : handed.source = entry.source
  wildcard : handed.wildcard = true ↔ entry.source = "_"

theorem CarriedAs.of_typed {entry : ImportEntry} (legible : entry.Legible) {own : TypedImport}
    (read : ReadFrom entry.render (.imports own.decl))
    (flags : own.implicits.length = own.decl.selectors.length) :
    ∃ handed, own.entries = [handed] ∧ CarriedAs entry handed := by
  rcases read.picks legible with ⟨source, name, none, wildcard⟩ | ⟨source, only, named⟩
  · have entries : own.entries = [{ ImportEntry.all own.path with relative := own.relative }] := by
      simp [TypedImport.entries, none, wildcard]
    exact ⟨_, entries, ⟨own, read, entries⟩, name.symm, source.symm, by simp [source, ImportEntry.all]⟩
  · rw [only] at flags
    obtain ⟨implicit, flag⟩ := List.length_eq_one_iff.mp flags
    have entries : own.entries = [
        { name := entry.name, source := entry.source, path := own.path, relative := own.relative, implicit }] := by
      simp [TypedImport.entries, only, named, flag]
    exact ⟨_, entries, ⟨own, read, entries⟩, rfl, rfl, by simp [source]⟩

/-- The members that the lines of a preamble are read as hand on one entry for each line, in their order. -/
theorem carried_entries {entries : List ImportEntry} (legible : ∀ entry ∈ entries, entry.Legible)
    {imports : List Import} {typed : List TypedMember}
    (read : List.Forall₂ ReadFrom (entries.map (·.render)) (imports.map .imports))
    (h : List.Forall₂ Member.TypedAs (imports.map .imports) typed) :
    List.Forall₂ CarriedAs entries (typed.flatMap (·.entries)) := by
  rw [List.forall₂_map_left_iff, List.forall₂_map_right_iff] at read
  rw [List.forall₂_map_left_iff] at h
  induction read generalizing typed with
  | nil => cases h; exact .nil
  | cons first others ih =>
    rw [List.forall_mem_cons] at legible
    cases h with
    | cons own rest =>
      cases own with
      | imports flags =>
        obtain ⟨handed, only, carried⟩ := CarriedAs.of_typed legible.1 first flags
        rw [List.flatMap_cons, TypedMember.entries, only]
        exact .cons carried (ih legible.2 rest)

section Wildcards

/-- The member is an import that takes all members of its path. -/
def Member.isWildcard : Member → Bool
  | .imports decl => decl.wildcard
  | _ => false

/-- A member hands on an entry for all members if it is an import of all members. -/
theorem Member.TypedAs.wildcards {member : Member} {typed : TypedMember} (h : member.TypedAs typed) :
    typed.entries.countP (·.wildcard) = [member].countP Member.isWildcard := by
  cases h with
  | @imports own flags path =>
    rw [TypedMember.entries, TypedImport.entries, List.countP_append, List.countP_map]
    cases wildcard : own.decl.wildcard <;>
      simp [Member.isWildcard, ImportEntry.all, wildcard, Function.comp_def]
  | val | func | foreign | container => rfl
  | expr => rfl

theorem wildcards_members {members : List Member} {typed : List TypedMember}
    (h : List.Forall₂ Member.TypedAs members typed) :
    (typed.flatMap (·.entries)).countP (·.wildcard) = members.countP Member.isWildcard := by
  induction h with
  | nil => rfl
  | @cons member own members typed first others ih =>
    rw [List.flatMap_cons, List.countP_append, ih, first.wildcards, ← List.countP_append]
    rfl

/-- How many entries of a ledger are for all members of a path. -/
def Ledger.wildcards (ledger : Ledger) : Nat := ledger.entries.countP (·.wildcard)

theorem Ledger.countP_place {entry : ImportEntry} (named : entry.wildcard = false) (entries : List ImportEntry) :
    (place entry entries).countP (·.wildcard) = entries.countP (·.wildcard) := by
  induction entries with
  | nil => simp [place, named]
  | cons first rest ih =>
    unfold place
    split
    next same =>
      have replaced : first.wildcard = false := by
        cases wildcard : first.wildcard
        · rfl
        · simp [wildcard] at same
      simp [named, replaced]
    next => simp [List.countP_cons, ih]

/-- Entries for all members are added to those that are there, and no other entry replaces one. -/
theorem Ledger.wildcards_update (ledger : Ledger) (entries : List ImportEntry) :
    (ledger.update entries).wildcards = ledger.wildcards + entries.countP (·.wildcard) := by
  induction entries generalizing ledger with
  | nil => rfl
  | cons entry rest ih =>
    have own : (ledger.insert entry).wildcards = ledger.wildcards + [entry].countP (·.wildcard) := by
      unfold Ledger.insert Ledger.wildcards
      dsimp only
      split
      next => rw [List.countP_append]
      next named => rw [countP_place (by simpa using named)]; simp [named]
    rw [Ledger.update, List.foldl_cons, ← Ledger.update, ih, own, Nat.add_assoc, ← List.countP_append]
    rfl

theorem countP_recorded (userPath : String) (entries : List ImportEntry) :
    (entries.map (Session.recorded userPath)).countP (·.wildcard) = entries.countP (·.wildcard) := by
  rw [List.countP_map]
  refine List.countP_congr fun entry _ => ?_
  unfold Session.recorded
  simp only [Function.comp_apply]
  split
  · exact Iff.rfl
  · split <;> exact Iff.rfl

end Wildcards

/-- What becomes of the exports of a fragment that was wrapped into an instance. -/
structure Session.Records (session : Session) (decls : List Decl) (unit : WrappedUnit)
    (exports : List ImportEntry) (after : Session) : Prop where
  /-- One import is counted for each entry that is written in front. -/
  count : unit.carried = (session.needed decls).length
  /-- The first exports are those of the lines in front, one for each, in their order. -/
  carried : List.Forall₂ CarriedAs (session.needed decls) (exports.take unit.carried)
  /-- The others are those of the members that the fragment's statements are read as; and the ledger has as
  many more entries for all members of a path as there are imports of that kind among them. -/
  own : ∃ members typed, List.Forall₂ ReadFrom (decls.map (·.code)) members ∧
    List.Forall₂ Member.TypedAs members typed ∧
    exports.drop unit.carried = typed.flatMap (·.entries) ∧
    after.ledger.wildcards = session.ledger.wildcards + members.countP Member.isWildcard
  /-- Only these are recorded. -/
  ledger : after.ledger =
    session.ledger.update ((exports.drop unit.carried).map (Session.recorded unit.userPath))

/-- Of the containers of a unit the last one is exported, and no other. -/
theorem WrappedUnit.exported_last (unit : WrappedUnit) :
    ∃ front last, unit.titles = front ++ [last] ∧ (∀ title ∈ front, title.exported = false) ∧
      last.exported = true := by
  unfold titles
  split
  · exact ⟨[_, _], _, rfl, by simp, rfl⟩
  · exact ⟨[_], _, rfl, by simp, rfl⟩

/-- The exports of a unit are what the members of its last container hand on. -/
theorem Compiled.exports_last {compiler done : Compiler} {unit : WrappedUnit} {entries : List ImportEntry}
    {decls : List Decl} {output : CompiledUnit} {program : Program} {checked : Typing.CheckedUnit}
    (h : Compiled compiler unit entries decls output done program checked) :
    ∀ last ∈ program.items.getLast?, ∃ typed, List.Forall₂ Member.TypedAs last.members typed ∧
      output.exports = typed.flatMap (·.entries) := by
  intro last tail
  obtain ⟨front, split⟩ := List.getLast?_eq_some_iff.mp tail
  obtain ⟨inits, final, titles, hidden, exported⟩ := unit.exported_last
  have same := h.encloses.titles
  rw [split, titles, List.map_append] at same
  obtain ⟨before, behind⟩ := List.append_inj' same rfl
  have typed := h.typed
  rw [split] at typed
  obtain ⟨others, ends, items, firsts, lasts⟩ := forall₂_append typed
  obtain ⟨own, none, ⟨source, members⟩, rest, rfl⟩ := List.forall₂_cons_left_iff.mp lasts
  obtain rfl := List.forall₂_nil_left_iff.mp rest
  have sources := sources_of_typed firsts
  have inner : others.filter (·.source.exported) = [] := by
    refine List.filter_eq_nil_iff.mpr fun item among => ?_
    have listed : item.source.title ∈ inits := by
      rw [← before, ← sources]
      exact List.mem_map_of_mem (List.mem_map_of_mem among)
    exact Bool.not_eq_true _ ▸ hidden _ listed
  have own_exported : own.source.exported = true := by
    rw [source]
    exact (congrArg Title.exported (List.cons.inj behind).1).trans exported
  refine ⟨own.members, members, ?_⟩
  rw [h.exports, TypedProgram.exports, items, List.filter_append, inner, List.nil_append]
  simp [own_exported]

/-- The exports of a unit whose statements are kept in an instance: those of the lines in front, and those of
the statements. -/
theorem Compiled.exports_boxed {compiler done : Compiler} {unit : WrappedUnit} {entries : List ImportEntry}
    {decls : List Decl} {output : CompiledUnit} {program : Program} {checked : Typing.CheckedUnit}
    (h : Compiled compiler unit entries decls output done program checked)
    (legible : ∀ entry ∈ entries, entry.Legible) (boxed : unit.classWrapped = true) :
    ∃ front members typed, output.exports = front ++ typed.flatMap (·.entries) ∧
      List.Forall₂ CarriedAs entries front ∧ List.Forall₂ ReadFrom (decls.map (·.code)) members ∧
      List.Forall₂ Member.TypedAs members typed := by
  obtain ⟨last, tail, -, imports, own, members, lines, codes⟩ := h.encloses.members
  rw [WrappedUnit.pasted, if_pos boxed] at lines
  obtain ⟨typed, forms, exports⟩ := h.exports_last last tail
  rw [members] at forms
  obtain ⟨front, back, rfl, before, behind⟩ := forall₂_append forms
  refine ⟨front.flatMap (·.entries), own, back, ?_, carried_entries legible lines before, codes, behind⟩
  rw [exports, List.flatMap_append]

/-- The unit of a fragment without an escape, in a session that wraps into instances. -/
theorem Session.unit_boxed {session : Session} (mode : session.config.wrap = .boxed) {decls : List Decl}
    (plain : decls.any Wrapper.hasFlatEscape = false) (candidate : String) :
    session.unit decls candidate = Wrapper.boxed displayCode decls
      (Ledger.renderLines (session.needed decls)) (sanitize candidate) ∧
      Wrapper.kept session.config.wrap decls = decls := by
  unfold Session.unit Wrapper.wrap Wrapper.wrapWith Wrapper.kept Wrapper.escapes
  rw [mode]
  simp [plain]

/-- What an evaluation records in a session that wraps into instances. -/
theorem Evaluation.records {own : Evaluation} (proper : own.Proper) (legible : own.session.Legible)
    (mode : own.session.config.wrap = .boxed) (plain : own.decls.any Wrapper.hasFlatEscape = false)
    {value : String} (ran : own.result.1 = .success value) :
    ∃ output, own.compiled.1 = .ok output ∧
      own.session.Records own.decls own.unit output.exports own.result.2 := by
  obtain ⟨output, same, ledger⟩ := own.evaluates.recorded value ran
  refine ⟨output, same, ?_⟩
  obtain ⟨program, checked, compiled⟩ := Evaluation.compiled_ok proper legible (Prod.ext same rfl)
  obtain ⟨unit, kept⟩ := Session.unit_boxed mode plain own.candidate
  have worded := legible.worded own.decls
  have count : own.unit.carried = (own.session.needed own.decls).length := by
    rw [Evaluation.unit, unit]
    exact count_renderLines fun entry listed => (worded entry listed).worded
  have boxed : own.unit.classWrapped = true := by
    rw [Evaluation.unit, unit]
    rfl
  obtain ⟨front, members, typed, exports, carried, codes, forms⟩ := compiled.exports_boxed worded boxed
  rw [kept] at codes
  have size : front.length = own.unit.carried := carried.length_eq.symm.trans count.symm
  have first : output.exports.take own.unit.carried = front := by rw [exports, ← size, List.take_left]
  have rest : output.exports.drop own.unit.carried = typed.flatMap (·.entries) := by
    rw [exports, ← size, List.drop_left]
  refine ⟨count, first ▸ carried, ⟨members, typed, codes, forms, rest, ?_⟩, ledger⟩
  rw [show own.result.2.ledger = _ from ledger, Ledger.wildcards_update, countP_recorded]
  exact congrArg (_ + ·) ((congrArg _ rest).trans (wildcards_members forms))

/-- A fragment that is wrapped into an instance records what its own statements hand on, and no more, in every
session that comes about. -/
theorem process_records {session after : Session} {text value : String} {decls : List Decl} {outside : Outside}
    (arises : session.Arises) (mode : session.config.wrap = .boxed)
    (read : session.reading text = .declarations decls)
    (plain : decls.any Wrapper.hasFlatEscape = false)
    (ran : session.process text outside = (.success value, after)) :
    ∃ output, ((session.taking text).compiler.compileWith
        (session.unit decls ("cmd" ++ toString session.line)).source outside.emission).1 = .ok output ∧
      session.Records decls (session.unit decls ("cmd" ++ toString session.line)) output.exports after := by
  obtain ⟨kept, -⟩ := session.taking_kept text
  rw [Session.process_of_declarations outside read] at ran
  let own : Evaluation := ⟨session.taking text, decls, "cmd" ++ toString session.line, outside⟩
  have listed : own ∈ session.evaluationsOf text outside := by
    rw [Session.evaluationsOf, read]
    exact List.mem_singleton_self own
  have proper : own.Proper := Session.proper_process own listed
  have needed : own.session.needed decls = session.needed decls := by
    rw [Session.needed, kept.ledger, Session.needed]
  have unit : own.unit = session.unit decls ("cmd" ++ toString session.line) := by
    show Session.unit _ _ _ = _
    rw [Session.unit, needed, kept.config, Session.unit]
  obtain ⟨output, compiled, records⟩ := Evaluation.records proper (arises.legible.of_kept kept)
    (kept.config ▸ mode) plain (congrArg Prod.fst ran)
  rw [Evaluation.compiled, unit] at compiled
  rw [unit] at records
  have behind : own.result.2 = after := congrArg Prod.snd ran
  rw [behind] at records
  refine ⟨output, compiled, ⟨needed ▸ records.count, needed ▸ records.carried, ?_, kept.ledger ▸ records.ledger⟩⟩
  rw [← kept.ledger]
  exact records.own

/-- The check that a text is a fragment without an escape that runs to its end. -/
def Session.runsPlainly (session : Session) (text : String) : Bool :=
  match session.reading text, (session.process text).1 with
  | .declarations decls, .success _ => !decls.any Wrapper.hasFlatEscape
  | _, _ => false

theorem Session.runsPlainly_ok {session : Session} {text : String} (runs : session.runsPlainly text = true) :
    ∃ decls value, session.reading text = .declarations decls ∧ decls.any Wrapper.hasFlatEscape = false ∧
      session.process text = (.success value, (session.process text).2) := by
  unfold runsPlainly at runs
  split at runs
  next decls value read ran =>
    exact ⟨decls, value, read, by simpa using runs, Prod.ext ran rfl⟩
  next => cases runs

/-- The second fragment of a session, written with the entry of the first one in front of it. -/
theorem process_records_of_second : ∃ (session : Session) (text : String) (decls : List Decl)
    (output : CompiledUnit), session.Arises ∧ session.ledger.entries.length = 1 ∧ session.Records decls
      (session.unit decls ("cmd" ++ toString session.line)) output.exports (session.process text).2 := by
  obtain ⟨session, text, arises, mode, runs, before⟩ : ∃ (session : Session) (text : String),
      session.Arises ∧ session.config.wrap = .boxed ∧ session.runsPlainly text = true ∧
        session.ledger.entries.length = 1 :=
    ⟨((Session.new { wrap := .boxed } {}).process "val a = 1").2, "a",
      (Session.Arises.new _ _).process _ _, by decide +kernel⟩
  obtain ⟨decls, value, read, plain, ran⟩ := Session.runsPlainly_ok runs
  obtain ⟨output, -, records⟩ := process_records arises mode read plain ran
  exact ⟨session, text, decls, output, arises, before, records⟩

end ScriptShell
