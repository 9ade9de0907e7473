import ScriptShell.Session
import ScriptShell.Proofs.Typing.Host
import ScriptShell.Proofs.Registry.Code

/-! What a text may change in a session. Text that is no fragment yet, or that cannot become one, changes
nothing but the pending input. A fragment is counted and put into the history whatever becomes of it, and
leaves a trace in the ledger and among the sources only if it ran to its end. A fragment that is not
compiled leaves the symbols and the loaded code alone, although its check writes in place. All of this holds
whatever the backend and the loader make of the fragment, and if they raise an exception. -/
namespace ScriptShell

namespace Workbench

/-- Questions of a check leave the loaded code alone. -/
theorem services_sameCode :
    services.Within fun before after : Workbench => before.registry.SameCode after.registry where
  refl bench := .refl bench.registry
  trans := .trans
  evaluate := by
    rintro ask ⟨⟩ symbols init bench
    have fetched := Registry.sameCode_currentLoader bench.registry bench.files .compiler
    unfold evaluateInline
    dsimp only
    split
    · exact fetched
    · exact fetched.trans (Registry.sameCode_evaluate _ _ _ _ _)
  visible := by
    rintro ask ⟨⟩ symbol bench
    have fetched := Registry.sameCode_currentLoader bench.registry bench.files .runtime
    exact fetched.trans (Registry.sameCode_isVisible _ _ _)

end Workbench

namespace Compiler

/-- What a check has written is dropped with the containers of its unit if the unit comes to nothing. -/
theorem compileWith_eq (compiler : Compiler) (source : String) (emission : Emission) :
    compiler.compileWith source emission =
      match readSource source with
      | .error diagnostic => (.error (.diagnosed diagnostic), compiler)
      | .ok program =>
        match typecheck Workbench.services compiler.table compiler.bench program with
        | (.error error, bench) =>
          (.error (.diagnosed (.make source error.line error.column error.cause.message)), { compiler with bench })
        | (.ok checked, bench) =>
          match generate source emission checked with
          | .error refusal => (.error refusal, { compiler with bench })
          | .ok unit => (.ok unit, ⟨compiler.table.commit checked.symbols checked.containers, bench⟩) := by
  unfold compileWith
  cases readSource source with
  | error diagnostic => rfl
  | ok program =>
    have left := compiler.table.leave_typecheck Workbench.services compiler.bench program
    unfold typecheck
    dsimp only
    generalize typecheckInPlace Workbench.services compiler.table compiler.bench program = answer at left ⊢
    obtain ⟨error | checked, symbols, bench⟩ := answer
    · simp only [left]
    · dsimp only at left ⊢
      cases generate source emission checked with
      | error refusal => simp only [left]
      | ok unit => rfl

/-- A compiler does to its workbench what the questions of a check do to it. -/
theorem compile_within {R : Workbench → Workbench → Prop} (within : Workbench.services.Within R)
    (compiler : Compiler) (source : String) (emission : Emission) :
    R compiler.bench (compiler.compileWith source emission).2.bench := by
  unfold compileWith
  split
  · exact within.refl _
  · rename_i program _
    have checked := typecheckInPlace_host within compiler.table compiler.bench program
    dsimp only
    split
    · exact checked
    · split <;> exact checked

theorem compile_sameCode (compiler : Compiler) (source : String) (emission : Emission) :
    compiler.bench.registry.SameCode (compiler.compileWith source emission).2.bench.registry :=
  compile_within Workbench.services_sameCode compiler source emission

theorem finish_ok {source : String} {checked : Typing.CheckedUnit} {output : CompiledUnit}
    (finished : finish source checked = .ok output) :
    Lowering.lowerProgram checked.symbols checked.program = .ok output.artifacts ∧
      output.exports = checked.program.exports := by
  unfold finish at finished
  cases lowered : Lowering.lowerProgram checked.symbols checked.program with
  | error error => simp [lowered] at finished
  | ok artifacts =>
    simp only [lowered, Except.ok.injEq] at finished
    subst finished
    exact ⟨rfl, rfl⟩

/-- Code that the verifier takes is called as it is declared. -/
theorem verify_ok {source : String} {unit output : CompiledUnit} (verified : verify source unit = .ok output) :
    output = unit ∧ ∀ artifact ∈ unit.artifacts, artifact.fits = true := by
  unfold verify at verified
  split at verified
  · cases verified
  · cases verified
  · rename_i fits
    cases verified
    exact ⟨rfl, by simpa using fits⟩

theorem generate_ok {source : String} {emission : Emission} {checked : Typing.CheckedUnit}
    {output : CompiledUnit} (generated : generate source emission checked = .ok output) :
    emission = .made ∧ finish source checked = .ok output := by
  unfold generate at generated
  split at generated
  · cases generated
  · cases generated
  · cases generated
  · obtain ⟨rfl, -⟩ := verify_ok generated
    exact ⟨rfl, by assumption⟩

/-- How a unit is compiled. -/
theorem compile_ok {compiler after : Compiler} {source : String} {emission : Emission} {unit : CompiledUnit}
    (compiled : compiler.compileWith source emission = (.ok unit, after)) :
    ∃ program checked bench, readSource source = .ok program ∧
      typecheck Workbench.services compiler.table compiler.bench program = (.ok checked, bench) ∧
      finish source checked = .ok unit ∧
      after = ⟨compiler.table.commit checked.symbols checked.containers, bench⟩ := by
  rw [compileWith_eq] at compiled
  cases read : readSource source with
  | error => simp [read] at compiled
  | ok program =>
    simp only [read] at compiled
    cases answer : typecheck Workbench.services compiler.table compiler.bench program with
    | mk checked bench =>
      cases checked with
      | error => simp [answer] at compiled
      | ok checked =>
        simp only [answer] at compiled
        cases generated : generate source emission checked with
        | error => simp [generated] at compiled
        | ok own =>
          simp only [generated, Prod.mk.injEq, Except.ok.injEq] at compiled
          obtain ⟨rfl, rfl⟩ := compiled
          exact ⟨program, checked, bench, rfl, answer, (generate_ok generated).2, rfl⟩

/-- A unit is compiled only if the backend takes its code. -/
theorem emission_of_ok {compiler : Compiler} {source : String} {emission : Emission} {unit : CompiledUnit}
    (compiled : (compiler.compileWith source emission).1 = .ok unit) : emission = .made := by
  rw [compileWith_eq] at compiled
  split at compiled
  · cases compiled
  · split at compiled
    · cases compiled
    · split at compiled
      · cases compiled
      · rename_i generated
        exact (generate_ok generated).1

theorem compile_table_of_error {compiler : Compiler} {source : String} {emission : Emission} {refusal : Refusal}
    (refused : (compiler.compileWith source emission).1 = .error refusal) :
    (compiler.compileWith source emission).2.table = compiler.table := by
  rw [compileWith_eq] at refused ⊢
  cases read : readSource source with
  | error => rfl
  | ok program =>
    simp only [read] at refused ⊢
    generalize typecheck Workbench.services compiler.table compiler.bench program = answer at refused ⊢
    obtain ⟨error | checked, bench⟩ := answer
    · rfl
    · dsimp only at refused ⊢
      cases generated : generate source emission checked with
      | error => rfl
      | ok => simp [generated] at refused

end Compiler

/-- The registry behind several artifacts. -/
def Registry.addAll (registry : Registry) (files : Files) (artifacts : List Artifact) : Registry :=
  artifacts.foldl (fun registry artifact => registry.addArtifact files artifact) registry

namespace Session

/-- A unit whose code cannot be loaded is not called. -/
theorem execute_cases (session : Session) (name : String) (artifacts : List Artifact) (outside : Outside) :
    (∃ reason, session.execute name artifacts outside =
        (loadFailure reason, (session.loadArtifacts artifacts outside).2)) ∨
      (session.loadArtifacts artifacts outside).1 = none ∧
        (session.loadArtifacts artifacts outside).2.unready? outside = none ∧
        session.execute name artifacts outside =
          (session.loadArtifacts artifacts outside).2.callWrapper name := by
  unfold execute
  generalize session.loadArtifacts artifacts outside = answer
  obtain ⟨_ | reason, ready⟩ := answer
  · dsimp only
    cases held : ready.unready? outside with
    | some reason => exact .inl ⟨_, rfl⟩
    | none => exact .inr ⟨rfl, rfl, rfl⟩
  · exact .inl ⟨reason, rfl⟩

/-- What a session keeps while it takes a fragment in: everything but the number of fragments, the
history, the files and the warnings. -/
structure Advanced (session : Session) (text : String) (after : Session) : Prop where
  line : after.line = session.line + 1
  history : after.history = session.history ++ [text]
  ledger : after.ledger = session.ledger
  sources : after.sources = session.sources
  unfinished : after.unfinished = session.unfinished
  table : after.compiler.table = session.compiler.table
  code : session.registry.SameCode after.registry

theorem advance_advanced (session : Session) (text : String) :
    session.Advanced text (session.advance text) := by
  unfold advance
  dsimp only
  split
  · exact ⟨rfl, rfl, rfl, rfl, rfl, rfl, .refl _⟩
  · split
    · exact ⟨rfl, rfl, rfl, rfl, rfl, rfl, .refl _⟩
    · exact ⟨rfl, rfl, rfl, rfl, rfl, rfl, ⟨rfl, rfl⟩⟩

/-- What a compiled fragment can end in. A failure is never taken for one of the compilation. -/
structure RanOutcome (outcome : Outcome String) : Prop where
  not_buffer : ∀ held, outcome ≠ .buffer held
  not_skip : outcome ≠ .skip
  not_refused : ∀ details, outcome ≠ .fail ("Compilation Failed\n" ++ details)

theorem ranOutcome_success (value : String) : RanOutcome (.success value) :=
  ⟨by simp, by simp, by simp [Outcome.fail]⟩

theorem ranOutcome_fail {message : String} (other : message.toList.head? ≠ some 'C') :
    RanOutcome (.fail message) := by
  refine ⟨by simp [Outcome.fail], by simp [Outcome.fail], fun details same => other ?_⟩
  simp only [Outcome.fail, Outcome.failure.injEq, Failure.mk.injEq, and_true] at same
  simp [same]

theorem ranOutcome_classify (fault : Fault) : RanOutcome fault.classify := by
  unfold Fault.classify
  dsimp only
  split
  · exact ⟨by simp, by simp, by simp [Outcome.fail]⟩
  · exact ranOutcome_fail (by decide)
  -- A trace names the frame at which it was cut, a refusal names none.
  · exact ⟨by simp, by simp, by simp [Outcome.fail, Fault.trace]⟩

/-- A call of an entry point changes the machine and the state of the loaded code only. -/
structure Called (session : Session) (outcome : Outcome String) (after : Session) : Prop where
  line : after.line = session.line
  history : after.history = session.history
  ledger : after.ledger = session.ledger
  sources : after.sources = session.sources
  outcome : RanOutcome outcome

theorem callWrapper_called (session : Session) (name : String) :
    session.Called (session.callWrapper name).1 (session.callWrapper name).2 := by
  unfold callWrapper
  dsimp only
  split
  · exact ⟨rfl, rfl, rfl, rfl, ranOutcome_fail (by simp)⟩
  · split
    · exact ⟨rfl, rfl, rfl, rfl, ranOutcome_classify _⟩
    · exact ⟨rfl, rfl, rfl, rfl, ranOutcome_success _⟩

/-- Loading changes nothing but the registry. -/
theorem loadArtifacts_registry (session : Session) (artifacts : List Artifact) (outside : Outside) :
    ∃ registry, (session.loadArtifacts artifacts outside).2 = session.setRegistry registry := by
  induction artifacts generalizing session with
  | nil => exact ⟨session.registry, rfl⟩
  | cons artifact rest ih =>
    have first : ∃ registry, (session.loadArtifact artifact outside).2 = session.setRegistry registry := by
      unfold loadArtifact
      split
      · exact ⟨session.registry, rfl⟩
      · exact ⟨_, rfl⟩
    obtain ⟨registry, own⟩ := first
    rw [loadArtifacts]
    generalize session.loadArtifact artifact outside = answer at own ⊢
    obtain ⟨reason | _, after⟩ := answer
    · obtain rfl : after = session.setRegistry registry := own
      obtain ⟨last, others⟩ := ih (session.setRegistry registry)
      exact ⟨last, others⟩
    · exact ⟨registry, own⟩

theorem execute_called (session : Session) (name : String) (artifacts : List Artifact) (outside : Outside) :
    session.Called (session.execute name artifacts outside).1 (session.execute name artifacts outside).2 := by
  obtain ⟨registry, loaded⟩ := session.loadArtifacts_registry artifacts outside
  obtain ⟨reason, failed⟩ | ⟨-, -, ran⟩ := session.execute_cases name artifacts outside
  · rw [failed, loaded]
    exact ⟨rfl, rfl, rfl, rfl, ranOutcome_fail (by simp)⟩
  · rw [ran, loaded]
    have called := callWrapper_called (session.setRegistry registry) name
    exact ⟨called.line, called.history, called.ledger, called.sources, called.outcome⟩

/-- Nothing was compiled: no wrapper is noted, no symbols are taken over, and no code comes or goes. -/
structure Uncompiled (session after : Session) : Prop where
  unfinished : after.unfinished = session.unfinished
  table : after.compiler.table = session.compiler.table
  artifacts : after.registry.artifacts = session.registry.artifacts
  images : after.registry.images.map (·.artifact) = session.registry.images.map (·.artifact)

/-- What becomes of a session that wraps declarations, compiles and runs them. -/
structure Evaluated (session : Session) (outside : Outside) (outcome : Outcome String) (after : Session) :
    Prop where
  line : after.line = session.line
  history : after.history = session.history
  not_buffer : ∀ held, outcome ≠ .buffer held
  not_skip : outcome ≠ .skip
  ledger : (∀ value, outcome ≠ .success value) → after.ledger = session.ledger
  sources : (∀ value, outcome ≠ .success value) → after.sources = session.sources
  refused : ∀ details, outcome = .fail ("Compilation Failed\n" ++ details) → session.Uncompiled after
  raised : ∀ what, outside.emission = .raised what → session.Uncompiled after

theorem refused_outcome (refusal : Refusal) :
    (∀ held, refused refusal ≠ .buffer held) ∧ refused refusal ≠ .skip ∧
      ∀ value, refused refusal ≠ .success value := by
  cases refusal <;> simp [refused, Outcome.unexpected, Outcome.fail]

theorem evaluate_evaluated (session : Session) (decls : List Decl) (candidate : String) (outside : Outside) :
    session.Evaluated outside (session.evaluate decls candidate outside).1
      (session.evaluate decls candidate outside).2 := by
  unfold evaluate
  dsimp only
  generalize Wrapper.wrap session.config.wrap decls _ candidate = unit
  have code := session.compiler.compile_sameCode unit.source outside.emission
  have table := @Compiler.compile_table_of_error session.compiler unit.source outside.emission
  have made := @Compiler.emission_of_ok session.compiler unit.source outside.emission
  generalize session.compiler.compileWith unit.source outside.emission = answer at code table made
  obtain ⟨refusal | compiled, compiler⟩ := answer
  · obtain ⟨buffer, skip, -⟩ := refused_outcome refusal
    have kept : session.Uncompiled { session with compiler } := ⟨rfl, table rfl, code.artifacts, code.images⟩
    exact ⟨rfl, rfl, buffer, skip, fun _ => rfl, fun _ => rfl, fun _ _ => kept, fun _ _ => kept⟩
  · dsimp only
    have taken (what : String) : outside.emission ≠ .raised what := by
      rw [made rfl]
      simp
    have ran := execute_called { session with
      compiler, unfinished := insertName unit.name session.unfinished } unit.name compiled.artifacts outside
    split
    all_goals
      rename_i called
      rw [called] at ran
    · exact ⟨ran.line, ran.history, by simp, by simp, fun none => absurd rfl (none _),
        fun none => absurd rfl (none _), by simp [Outcome.fail], fun what same => absurd same (taken what)⟩
    · exact ⟨ran.line, ran.history, ran.outcome.not_buffer, ran.outcome.not_skip, fun _ => ran.ledger,
        fun _ => ran.sources, fun details same => absurd same (ran.outcome.not_refused details),
        fun what same => absurd same (taken what)⟩

/-- What the pending input and a text behind it turn out to be. -/
def reading (session : Session) (text : String) : Fragment :=
  Fragment.parse (session.pending.getD "" ++ text) (toString session.line)

/-- What a text may change in a session. -/
structure Framed (session : Session) (text : String) (outside : Outside) (outcome : Outcome String)
    (after : Session) : Prop where
  /-- Input that is incomplete is held back, and nothing else changes. -/
  buffer : ∀ held, outcome = .buffer held → after = { session with pending := some held }
  /-- Blank input leaves nothing behind but an empty buffer. -/
  skip : outcome = .skip → after = { session with pending := none }
  /-- So does input that nothing can complete. -/
  malformed : ∀ error, session.reading text = .malformed error →
    outcome = .fail error.message ∧ after = { session with pending := none }
  /-- A fragment is counted and written down, whatever becomes of it. -/
  counted : ∀ decls, session.reading text = .declarations decls →
    after.line = session.line + 1 ∧
      after.history = session.history ++ [session.pending.getD "" ++ text]
  /-- Nothing else is. -/
  uncounted : (∀ decls, session.reading text ≠ .declarations decls) →
    after.line = session.line ∧ after.history = session.history
  /-- Only success is handed on. -/
  unrecorded : (∀ value, outcome ≠ .success value) →
    after.ledger = session.ledger ∧ after.sources = session.sources
  /-- What is not compiled leaves the symbols and the loaded code alone. -/
  refused : ∀ details, outcome = .fail ("Compilation Failed\n" ++ details) → session.Uncompiled after
  /-- So does what ends in an exception of the backend. -/
  raised : ∀ what, outside.emission = .raised what → session.Uncompiled after

theorem process_framed (session : Session) (text : String) (outside : Outside) :
    session.Framed text outside (session.process text outside).1 (session.process text outside).2 := by
  have still (pending : Option String) : session.Uncompiled { session with pending } := ⟨rfl, rfl, rfl, rfl⟩
  unfold process
  dsimp only
  rw [show Fragment.parse (session.pending.getD "" ++ text) (toString session.line) =
    session.reading text from rfl]
  split
  next held parsed =>
    exact ⟨by simp, by simp, by simp [parsed], by simp [parsed], fun _ => ⟨rfl, rfl⟩,
      fun _ => ⟨rfl, rfl⟩, by simp [Outcome.fail], fun _ _ => still _⟩
  next parsed =>
    exact ⟨by simp, by simp, by simp [parsed], by simp [parsed], fun _ => ⟨rfl, rfl⟩,
      fun _ => ⟨rfl, rfl⟩, by simp [Outcome.fail], fun _ _ => still _⟩
  next error parsed =>
    exact ⟨by simp [Outcome.fail], by simp [Outcome.fail], by simp [parsed], by simp [parsed],
      fun _ => ⟨rfl, rfl⟩, fun _ => ⟨rfl, rfl⟩, fun _ _ => still _, fun _ _ => still _⟩
  next decls parsed =>
    have taken := advance_advanced { session with pending := none } (session.pending.getD "" ++ text)
    generalize advance { session with pending := none } (session.pending.getD "" ++ text) = moved at taken
    have done := evaluate_evaluated moved decls ("cmd" ++ toString session.line) outside
    have kept {after : Session} (own : moved.Uncompiled after) : session.Uncompiled after :=
      ⟨own.unfinished.trans taken.unfinished, own.table.trans taken.table,
        own.artifacts.trans taken.code.artifacts, own.images.trans taken.code.images⟩
    exact ⟨fun held same => absurd same (done.not_buffer held), fun same => absurd same done.not_skip,
      by simp [parsed], fun _ _ => ⟨done.line.trans taken.line, done.history.trans taken.history⟩,
      fun none => absurd parsed (none decls), fun none => ⟨(done.ledger none).trans taken.ledger,
        (done.sources none).trans taken.sources⟩, fun details same => kept (done.refused details same),
      fun what same => kept (done.raised what same)⟩

end Session

end ScriptShell
