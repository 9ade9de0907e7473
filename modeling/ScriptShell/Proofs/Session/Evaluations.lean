import ScriptShell.Proofs.Session.Ledgers
import ScriptShell.Proofs.Termination.Sessions

/-!
What an evaluation comes to. A unit that is compiled has the containers of its wrapper: its artifacts and its
symbols are named after them, and its exports are what the members of the exported one hand on. Everything
that a session does with a compiled unit is stated here once: what becomes of its symbols, of the loaded
code, and of its ledger.
-/
namespace ScriptShell

open Lexer Fragment

/-- The names of the containers of a unit. -/
def WrappedUnit.names (unit : WrappedUnit) : List String := unit.titles.map (·.name)

/-- A unit with the imports and the statements that are pasted into it was compiled: this is how it was read
and checked. -/
structure Compiled (compiler : Compiler) (unit : WrappedUnit) (entries : List ImportEntry)
    (decls : List Decl) (output : CompiledUnit) (done : Compiler) (program : Program)
    (checked : Typing.CheckedUnit) : Prop where
  encloses : Encloses unit entries decls program
  words : program.Words
  typed : List.Forall₂ (fun item own => own.source = item ∧
    List.Forall₂ Member.TypedAs item.members own.members) program.items checked.program.items
  artifacts : output.artifacts.map (·.name) = unit.names
  exports : output.exports = checked.program.exports
  symbols : checked.containers.map (fun id => (checked.symbols.get id).name) = unit.names
  distinct : unit.names.Nodup
  table : done.table = compiler.table.commit checked.symbols checked.containers
  spelled : done.table.Spelled

theorem names_of_titles {unit : WrappedUnit} {items : List Container}
    (titles : items.map Container.title = unit.titles) : items.map (·.name) = unit.names := by
  rw [WrappedUnit.names, ← titles, List.map_map]
  rfl

/-- Each container of a program has one artifact, under its name. -/
theorem names_lowerProgram {symbols : Symbols} {program : TypedProgram} {artifacts : List Artifact}
    (lowered : Lowering.lowerProgram symbols program = .ok artifacts) :
    artifacts.map (·.name) = program.items.map (·.source.name) := by
  unfold Lowering.lowerProgram at lowered
  generalize program.items = items at lowered
  induction items generalizing artifacts with
  | nil =>
    rw [List.mapM_nil] at lowered
    cases lowered
    rfl
  | cons item rest ih =>
    rw [List.mapM_cons] at lowered
    obtain ⟨first, own, lowered⟩ := Except.bind_ok.mp lowered
    obtain ⟨others, more, lowered⟩ := Except.bind_ok.mp lowered
    obtain ⟨procedures, -, own⟩ := Except.bind_ok.mp own
    cases own
    cases lowered
    rw [List.map_cons, List.map_cons, ih more]

theorem sources_of_typed {items : List Container} {typed : List TypedContainer}
    (h : List.Forall₂ (fun item own => own.source = item ∧
      List.Forall₂ Member.TypedAs item.members own.members) items typed) :
    typed.map (·.source) = items := by
  induction h with
  | nil => rfl
  | cons own others ih => rw [List.map_cons, own.1, ih]

/-- A wrapped fragment that compiles. -/
theorem Compiler.compile_wrapped {compiler done : Compiler} {mode : WrapMode} {decls : List Decl}
    {entries : List ImportEntry} {candidate : String} {emission : Emission} {output : CompiledUnit}
    (spelled : compiler.table.Spelled) (tidy : ∀ decl ∈ decls, Tidy decl)
    (named : IsWord (sanitize candidate).toList) (worded : ∀ entry ∈ entries, entry.Worded)
    (compiled : compiler.compileWith
      (Wrapper.wrap mode decls (Ledger.renderLines entries) candidate).source emission = (.ok output, done)) :
    ∃ program checked, Compiled compiler (Wrapper.wrap mode decls (Ledger.renderLines entries) candidate)
      entries (Wrapper.kept mode decls) output done program checked := by
  obtain ⟨program, checked, bench, read, accepted, finished, rfl⟩ := compile_ok compiled
  have encloses := Wrapper.wrap_reads tidy named worded read
  have words := readSource_words read
  have typed := typecheck_members accepted words spelled
  have names := names_of_titles encloses.titles
  obtain ⟨lowered, exports⟩ := finish_ok finished
  refine ⟨program, checked, encloses, words, typed, ?_, exports, ?_, ?_, rfl, spelled.commit words accepted⟩
  · rw [names_lowerProgram lowered, ← names, ← sources_of_typed typed, List.map_map]
    rfl
  · rw [typecheck_names accepted, names]
  · exact names ▸ (typecheck_declares accepted).1

namespace Registry

/-- A registry keeps the names of its artifacts when its loaders are asked. -/
theorem SameCode.hasArtifact {before after : Registry} (same : before.SameCode after) (name : String) :
    after.hasArtifact name = before.hasArtifact name := by
  unfold Registry.hasArtifact
  rw [same.artifacts]

theorem hasArtifact_iff {registry : Registry} {name : String} :
    registry.hasArtifact name = true ↔ name ∈ registry.artifactNames := by
  unfold hasArtifact artifactNames
  constructor
  · intro found
    obtain ⟨index, own⟩ := Option.isSome_iff_exists.mp found
    exact List.mem_map_of_mem (f := Prod.fst) (mem_of_lookup own)
  · intro listed
    obtain ⟨entry, own, rfl⟩ := List.mem_map.mp listed
    exact isSome_lookup_of_mem own

/-- An artifact that is added is there under its name, and no other comes. -/
theorem mem_addArtifact {registry : Registry} {files : Files} {artifact : Artifact} {name : String}
    (listed : name ∈ (registry.addArtifact files artifact).artifactNames) :
    name = artifact.name ∨ name ∈ registry.artifactNames := by
  have same := (sameCode_currentLoader registry files .runtime).artifacts
  obtain ⟨entry, own, rfl⟩ := List.mem_map.mp listed
  rcases mem_bindName own with rfl | old
  · exact .inl rfl
  · exact .inr (List.mem_map_of_mem (same ▸ old))

theorem mem_addAll {registry : Registry} {files : Files} {artifacts : List Artifact} {name : String}
    (listed : name ∈ (registry.addAll files artifacts).artifactNames) :
    name ∈ artifacts.map (·.name) ∨ name ∈ registry.artifactNames := by
  induction artifacts generalizing registry with
  | nil => exact .inr listed
  | cons artifact rest ih =>
    rcases ih listed with later | before
    · exact .inl (List.mem_cons_of_mem _ later)
    · rcases mem_addArtifact before with rfl | old
      · exact .inl List.mem_cons_self
      · exact .inr old

/-- Whatever the loading of an artifact comes to, no other name is there behind it. -/
theorem mem_tryArtifact {registry : Registry} {files : Files} {artifact : Artifact} {verdict : LoadVerdict}
    {name : String} (listed : name ∈ (registry.tryArtifact files artifact verdict).2.artifactNames) :
    name = artifact.name ∨ name ∈ registry.artifactNames := by
  obtain same | ⟨artifacts, _, fewer, same⟩ := registry.tryArtifact_cases files artifact verdict
  · rw [same] at listed
    exact mem_addArtifact listed
  · rw [same] at listed
    have old := (sameCode_currentLoader registry files .runtime).artifacts
    obtain ⟨entry, own, rfl⟩ := List.mem_map.mp listed
    exact .inr (List.mem_map_of_mem (old ▸ fewer own))

end Registry

namespace Session

/-- The entries of the ledger that declarations need. -/
def needed (session : Session) (decls : List Decl) : List ImportEntry :=
  session.ledger.entries.filter (Ledger.needed (decls.flatMap (·.references)))

/-- The unit that declarations are wrapped into. -/
def unit (session : Session) (decls : List Decl) (candidate : String) : WrappedUnit :=
  Wrapper.wrap session.config.wrap decls (Ledger.renderLines (session.needed decls)) candidate

/-- What an evaluation does with its unit: to the symbols, to the loaded code, and to the ledger. -/
structure Evaluates (session : Session) (unit : WrappedUnit) (outside : Outside) (outcome : Outcome String)
    (after : Session) : Prop where
  config : after.config = session.config
  line : after.line = session.line
  files : after.files = session.files
  table : after.compiler.table = (session.compiler.compileWith unit.source outside.emission).2.table
  /-- Of a unit that is refused nothing is loaded. -/
  refused : ∀ refusal, (session.compiler.compileWith unit.source outside.emission).1 = .error refusal →
    session.registry.SameCode after.registry ∧ ∀ value, outcome ≠ .success value
  /-- Of a compiled one no more than its artifacts. -/
  loaded : ∀ output, (session.compiler.compileWith unit.source outside.emission).1 = .ok output →
    ∀ name ∈ after.registry.artifactNames,
      name ∈ output.artifacts.map (·.name) ∨ name ∈ session.registry.artifactNames
  /-- Only what ran to its end is recorded. -/
  recorded : ∀ value, outcome = .success value → ∃ output,
    (session.compiler.compileWith unit.source outside.emission).1 = .ok output ∧ after.ledger =
      session.ledger.update ((output.exports.drop unit.carried).map (Session.recorded unit.userPath))
  unrecorded : (∀ value, outcome ≠ .success value) → after.ledger = session.ledger

/-- A call of an entry point changes neither the symbols nor the loaded code, nor the setup. -/
theorem callWrapper_kept (session : Session) (name : String) :
    session.registry.SameCode (session.callWrapper name).2.registry ∧
      (session.callWrapper name).2.config = session.config := by
  have fetched := Registry.sameCode_currentLoader session.registry session.files .runtime
  have found := fetched.trans (Registry.sameCode_resolve
    (session.registry.currentLoader session.files .runtime).2
    (session.registry.currentLoader session.files .runtime).1 (name ++ "$Main"))
  unfold callWrapper
  dsimp only
  split
  · exact ⟨found, rfl⟩
  · split <;> exact ⟨found, rfl⟩

/-- Loading artifacts brings no names but theirs. -/
theorem mem_loadArtifacts {session : Session} {artifacts : List Artifact} {outside : Outside} {name : String}
    (listed : name ∈ (session.loadArtifacts artifacts outside).2.registry.artifactNames) :
    name ∈ artifacts.map (·.name) ∨ name ∈ session.registry.artifactNames := by
  induction artifacts generalizing session with
  | nil => exact .inr listed
  | cons artifact rest ih =>
    have first (there : name ∈ (session.loadArtifact artifact outside).2.registry.artifactNames) :
        name = artifact.name ∨ name ∈ session.registry.artifactNames := by
      unfold loadArtifact at there
      split at there
      · exact .inr there
      · exact Registry.mem_tryArtifact there
    rw [List.map_cons, List.mem_cons, or_assoc, or_left_comm]
    rw [loadArtifacts] at listed
    generalize session.loadArtifact artifact outside = answer at listed first
    obtain ⟨_ | reason, after⟩ := answer
    · exact (ih listed).imp_right first
    · exact .inr (first listed)

/-- Executing a unit leaves the symbols alone, and loads no more than its artifacts. -/
theorem execute_brings (session : Session) (name : String) (artifacts : List Artifact) (outside : Outside) :
    (session.execute name artifacts outside).2.config = session.config ∧
      ∀ other ∈ (session.execute name artifacts outside).2.registry.artifactNames,
        other ∈ artifacts.map (·.name) ∨ other ∈ session.registry.artifactNames := by
  obtain ⟨registry, same⟩ := session.loadArtifacts_registry artifacts outside
  obtain ⟨reason, failed⟩ | ⟨-, -, ran⟩ := session.execute_cases name artifacts outside
  · rw [failed]
    exact ⟨by rw [same]; rfl, fun _ listed => mem_loadArtifacts listed⟩
  · rw [ran]
    obtain ⟨code, config⟩ := callWrapper_kept (session.loadArtifacts artifacts outside).2 name
    refine ⟨config.trans (by rw [same]; rfl), fun other listed => ?_⟩
    rw [Registry.artifactNames, code.artifacts] at listed
    exact mem_loadArtifacts listed

theorem evaluate_evaluates (session : Session) (decls : List Decl) (candidate : String) (outside : Outside) :
    session.Evaluates (session.unit decls candidate) outside (session.evaluate decls candidate outside).1
      (session.evaluate decls candidate outside).2 := by
  unfold evaluate
  dsimp only
  rw [show Wrapper.wrap session.config.wrap decls (session.ledger.blockFor (decls.flatMap (·.references)))
    candidate = session.unit decls candidate from rfl]
  generalize session.unit decls candidate = unit
  have code := session.compiler.compile_sameCode unit.source outside.emission
  have files := (session.compiler.compile_orderly unit.source outside.emission).1
  cases answer : session.compiler.compileWith unit.source outside.emission with
  | mk compiled compiler =>
    rw [answer] at code files
    cases compiled with
    | error refusal =>
      obtain ⟨-, -, none⟩ := refused_outcome refusal
      exact ⟨rfl, rfl, files, by rw [answer], fun _ _ => ⟨code, none⟩, by simp [answer],
        fun value same => absurd same (none value), fun _ => rfl⟩
    | ok output =>
      dsimp only
      have called := execute_called { session with
        compiler, unfinished := insertName unit.name session.unfinished } unit.name output.artifacts outside
      obtain ⟨config, brings⟩ := execute_brings { session with
        compiler, unfinished := insertName unit.name session.unfinished } unit.name output.artifacts outside
      obtain ⟨symbols, places, -⟩ := execute_kept { session with
        compiler, unfinished := insertName unit.name session.unfinished } unit.name output.artifacts outside
      generalize execute { session with
        compiler, unfinished := insertName unit.name session.unfinished } unit.name output.artifacts outside =
          result at called config brings symbols places
      obtain ⟨outcome, after⟩ := result
      have seen : after.files = session.files := places.trans files
      have own : ∀ other, (session.compiler.compileWith unit.source outside.emission).1 = .ok other →
          ∀ name ∈ after.registry.artifactNames,
            name ∈ other.artifacts.map (·.name) ∨ name ∈ session.registry.artifactNames := by
        intro other same name listed
        obtain rfl : output = other := by simpa [answer] using same
        refine (brings name listed).imp_right fun old => ?_
        have before : compiler.bench.registry.artifacts = session.registry.artifacts := code.artifacts
        rw [Registry.artifactNames, ← before]
        exact old
      cases outcome with
      | success value =>
        exact ⟨config, called.line, seen, by rw [answer]; exact symbols, by simp [answer], own,
          fun _ _ => ⟨output, by rw [answer], congrArg (Ledger.update · _) called.ledger⟩, by simp⟩
      | failure _ | exit | skip | buffer _ =>
        exact ⟨config, called.line, seen, by rw [answer]; exact symbols, by simp [answer], own, by simp,
          fun _ => called.ledger⟩

end Session

end ScriptShell
