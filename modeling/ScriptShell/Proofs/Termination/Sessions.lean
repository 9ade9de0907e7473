import ScriptShell.Proofs.Termination.Loading
import ScriptShell.Proofs.Termination.Lowering
import ScriptShell.Proofs.Session.Frame

/-! Fragments end. Whatever a session compiles, loads, links and calls, its code keeps its frames, as long as
neither a unit nor a library reaches for the functions that keep them. So every call of an entry point
ends, with a value or with a fault, whatever recursion it contains. -/
namespace ScriptShell

namespace Workbench

/-- Questions of a check keep loaded code in order. -/
theorem services_orderly : services.Within fun before after : Workbench => after.files = before.files ∧
    before.registry.SameRoots after.registry ∧
    (before.registry.KeepsFrames before.files → before.registry.Orderly → after.registry.Orderly) where
  refl bench := ⟨rfl, .refl _, fun _ orderly => orderly⟩
  trans := by
    rintro first second third ⟨same, roots, one⟩ ⟨again, others, two⟩
    refine ⟨again.trans same, roots.trans others, fun keeps orderly => two ?_ (one keeps orderly)⟩
    rw [same]
    exact roots.keepsFrames keeps
  evaluate := by
    rintro ask ⟨⟩ symbols init bench
    have roots := Registry.sameRoots_currentLoader bench.registry bench.files .compiler
    unfold evaluateInline
    dsimp only
    split
    · exact ⟨rfl, roots, fun keeps orderly => orderly.currentLoader keeps .compiler⟩
    · exact ⟨rfl, roots.trans (Registry.sameRoots_evaluate _ _ _ _ _),
        fun keeps orderly => (orderly.currentLoader keeps .compiler).evaluate _ _ _ _⟩
  visible := by
    rintro ask ⟨⟩ symbol bench
    have roots := Registry.sameRoots_currentLoader bench.registry bench.files .runtime
    exact ⟨rfl, roots.trans (Registry.sameRoots_isVisible _ _ _),
      fun keeps orderly => (orderly.currentLoader keeps .runtime).isVisible _ _⟩

end Workbench

namespace Compiler

theorem compile_orderly (compiler : Compiler) (source : String) (emission : Emission) :
    (compiler.compileWith source emission).2.bench.files = compiler.bench.files ∧
      compiler.bench.registry.SameRoots (compiler.compileWith source emission).2.bench.registry ∧
      (compiler.bench.registry.KeepsFrames compiler.bench.files → compiler.bench.registry.Orderly →
        (compiler.compileWith source emission).2.bench.registry.Orderly) :=
  compile_within Workbench.services_orderly compiler source emission

/-- The symbols of an accepted unit are titled, and its code is in order if they spare the frames. -/
theorem compile_titled {compiler after : Compiler} {source : String} {emission : Emission} {unit : CompiledUnit}
    (titled : compiler.table.symbols.Titled) (compiled : compiler.compileWith source emission = (.ok unit, after)) :
    after.table.symbols.Titled ∧
      (after.table.symbols.SparesFrames → ∀ artifact ∈ unit.artifacts, artifact.Orderly) := by
  obtain ⟨program, checked, bench, -, accepted, finished, rfl⟩ := compile_ok compiled
  have fits := typecheck_fits accepted
  have later : checked.symbols.Titled := by
    intro id member listed
    by_cases old : id < compiler.table.symbols.containers.size
    · rw [fits.old id old] at listed
      exact titled id member listed
    · exact fits.titled id (Nat.le_of_not_lt old) member listed
  refine ⟨later, fun spares artifact listed => ?_⟩
  exact Lowering.lowerProgram_orderly (later.frameFree spares) fits.items (finish_ok finished).1 listed

theorem compile_titled_table {compiler : Compiler} (titled : compiler.table.symbols.Titled)
    (source : String) (emission : Emission) : (compiler.compileWith source emission).2.table.symbols.Titled := by
  cases compiled : compiler.compileWith source emission with
  | mk answer after =>
    cases answer with
    | ok unit => exact (compile_titled titled compiled).1
    | error diagnostic =>
      have same := compile_table_of_error (congrArg Prod.fst compiled)
      rw [compiled] at same
      rw [same]
      exact titled

/-- Symbols are added only. -/
theorem compile_extends (compiler : Compiler) (source : String) (emission : Emission) :
    compiler.table.symbols.Extends (compiler.compileWith source emission).2.table.symbols := by
  cases compiled : compiler.compileWith source emission with
  | mk answer after =>
    cases answer with
    | ok unit =>
      obtain ⟨program, checked, bench, -, accepted, -, rfl⟩ := compile_ok compiled
      have fits := typecheck_fits accepted
      exact ⟨fits.size, fits.old⟩
    | error diagnostic =>
      have same := compile_table_of_error (congrArg Prod.fst compiled)
      rw [compiled] at same
      rw [same]
      exact .refl _

end Compiler

theorem Symbols.SparesFrames.of_extends {S T : Symbols} (spares : T.SparesFrames) (grows : S.Extends T) :
    S.SparesFrames :=
  fun own listed => spares own (grows.flatMap listed)

namespace Session

/-- No library file that the roots of a session stand for provides the functions that keep the frames. -/
def KeepsFrames (session : Session) : Prop := session.registry.KeepsFrames session.files

/-- The states that a session goes through, those inside an evaluation included, as long as no unit declares
a foreign function by a reserved name and no root brings in the functions that keep frames. -/
inductive Reached : Session → Prop
  | new (config : SessionConfig) (files : Files) : Reached (.new config files)
  | compile (before : Reached session) (source : String) (emission : Emission)
      (spares : (session.compiler.compileWith source emission).2.table.symbols.SparesFrames) :
      Reached { session with compiler := (session.compiler.compileWith source emission).2 }
  | load {unit : CompiledUnit} {done : Compiler} (before : Reached session)
      (compiled : session.compiler.compileWith source emission = (.ok unit, done))
      (spares : done.table.symbols.SparesFrames) (unfinished : List String) (outside : Outside) :
      Reached (loadArtifacts { session with compiler := done, unfinished } unit.artifacts outside).2
  | call (before : Reached session) (name : String) : Reached (session.callWrapper name).2
  | addPaths (before : Reached session) (tier : Tier) (paths : List String)
      (keeps : (session.addPaths tier paths).2.KeepsFrames) : Reached (session.addPaths tier paths).2
  | setShared (before : Reached session) (enabled : Bool) :
      Reached (session.setRegistry (session.registry.setShared enabled).2)
  | reset (before : Reached session) : Reached { session with compiler := session.compiler.reset }
  /-- Everything else that a session has: files, the machine, warnings, the ledger, counters. -/
  | other (before : Reached session) (table : after.compiler.table = session.compiler.table)
      (registry : ∃ warnings, after.registry = { session.registry with warnings })
      (keeps : after.KeepsFrames) : Reached after

/-- What is loaded in a session is in order. -/
structure Orderly (session : Session) : Prop where
  roots : session.KeepsFrames
  registry : session.registry.Orderly
  titled : session.compiler.table.symbols.Titled

theorem Orderly.setRegistry {session : Session} (orderly : session.Orderly) {registry : Registry}
    (same : session.registry.SameRoots registry) (own : registry.Orderly) :
    (session.setRegistry registry).Orderly :=
  ⟨same.keepsFrames orderly.roots, own, orderly.titled⟩

theorem roots_loadArtifact (session : Session) (artifact : Artifact) (outside : Outside) :
    session.registry.SameRoots (session.loadArtifact artifact outside).2.registry := by
  unfold Session.loadArtifact
  split
  · exact .refl _
  · obtain ⟨toolchain, roots⟩ := Registry.sameRoots_currentLoader session.registry session.files .runtime
    dsimp only
    obtain same | ⟨artifacts, loaded, -, same⟩ := session.registry.tryArtifact_cases session.files artifact
      (outside.loading artifact.name).1
    all_goals
      rw [same]
      exact ⟨toolchain, roots⟩

theorem Orderly.loadArtifact {session : Session} (orderly : session.Orderly) {artifact : Artifact}
    (own : artifact.Orderly) (outside : Outside) : (session.loadArtifact artifact outside).2.Orderly := by
  have roots := session.roots_loadArtifact artifact outside
  unfold Session.loadArtifact at roots ⊢
  split
  · exact orderly
  · rename_i ready
    simp only [ready] at roots
    dsimp only
    refine orderly.setRegistry roots ?_
    have fetched := orderly.registry.currentLoader orderly.roots .runtime
    obtain same | ⟨artifacts, loaded, -, same⟩ := session.registry.tryArtifact_cases session.files artifact
      (outside.loading artifact.name).1
    · rw [same]
      exact orderly.registry.addArtifact orderly.roots own
    · rw [same]
      exact fetched.configure rfl fetched.links fetched.tiers

theorem roots_loadArtifacts (session : Session) (artifacts : List Artifact) (outside : Outside) :
    session.registry.SameRoots (session.loadArtifacts artifacts outside).2.registry := by
  induction artifacts generalizing session with
  | nil => exact .refl _
  | cons artifact rest ih =>
    have first := session.roots_loadArtifact artifact outside
    rw [Session.loadArtifacts]
    split
    all_goals
      rename_i loaded
      rw [loaded] at first
    · exact first
    · exact first.trans (ih _)

theorem Orderly.loadArtifacts {session : Session} (orderly : session.Orderly)
    {artifacts : List Artifact} (own : ∀ artifact ∈ artifacts, artifact.Orderly) (outside : Outside) :
    (session.loadArtifacts artifacts outside).2.Orderly := by
  induction artifacts generalizing session with
  | nil => exact orderly
  | cons artifact rest ih =>
    have first := orderly.loadArtifact (own artifact List.mem_cons_self) outside
    rw [Session.loadArtifacts]
    split
    all_goals
      rename_i loaded
      rw [loaded] at first
    · exact first
    · exact ih first fun other listed => own other (List.mem_cons_of_mem _ listed)

theorem roots_callWrapper (session : Session) (name : String) :
    session.registry.SameRoots (session.callWrapper name).2.registry := by
  have fetched := Registry.sameRoots_currentLoader session.registry session.files .runtime
  have found := fetched.trans (Registry.sameRoots_resolve _
    (session.registry.currentLoader session.files .runtime).1 (name ++ "$Main"))
  unfold Session.callWrapper
  dsimp only
  split
  · exact found
  · split <;> exact found

theorem Orderly.callWrapper {session : Session} (orderly : session.Orderly) (name : String) :
    (session.callWrapper name).2.Orderly := by
  have found := (orderly.registry.currentLoader orderly.roots .runtime).resolve
    (session.registry.currentLoader session.files .runtime).1 (name ++ "$Main")
  have linked := orderly.setRegistry ((Registry.sameRoots_currentLoader session.registry session.files .runtime).trans
    (Registry.sameRoots_resolve _ _ _)) found
  unfold Session.callWrapper
  dsimp only
  split
  · exact linked
  · split <;> exact ⟨linked.roots, linked.registry, linked.titled⟩

theorem Reached.orderly {session : Session} (reached : session.Reached) : session.Orderly := by
  induction reached with
  | new config files =>
    refine ⟨?_, ?_, fun id member listed => ?_⟩
    · have shared := Registry.sameRoots_setShared { toolchain := config.toolchain } config.shared
      have bare : ∀ tier, ((Session.new config files).registry.tier tier).roots = [] := fun tier =>
        (Registry.roots_setPlugins _ config.plugins tier).trans ((shared.roots tier).trans (by cases tier <;> rfl))
      exact Registry.keepsFrames_of_rootless _ _ (bare .runtime) (bare .compiler) (bare .plugin)
    · exact ((Registry.orderly_empty config.toolchain).setShared config.shared).setPlugins config.plugins
    · simp [Session.new, Symbols.get] at listed
  | @compile session before source emission spares ih =>
    obtain ⟨files, roots, kept⟩ := session.compiler.compile_orderly source emission
    refine ⟨?_, kept ih.roots ih.registry, Compiler.compile_titled_table ih.titled source emission⟩
    exact roots.keepsFrames_of_files files ih.roots
  | @load session source emission unit done before compiled spares unfinished outside ih =>
    obtain ⟨files, roots, kept⟩ := session.compiler.compile_orderly source emission
    rw [compiled] at files roots kept
    obtain ⟨titled, artifacts⟩ := Compiler.compile_titled ih.titled compiled
    have own : Orderly { session with compiler := done, unfinished } :=
      ⟨roots.keepsFrames_of_files files ih.roots, kept ih.roots ih.registry, titled⟩
    exact own.loadArtifacts (artifacts spares) outside
  | call before name ih => exact ih.callWrapper name
  | addPaths before tier paths keeps ih => exact ⟨keeps, ih.registry.addPaths _ tier paths, ih.titled⟩
  | setShared before enabled ih =>
    exact ih.setRegistry (Registry.sameRoots_setShared _ enabled) (ih.registry.setShared enabled)
  | reset before ih =>
    refine ⟨ih.roots, ih.registry, fun id member listed => ?_⟩
    simp [Compiler.reset, Symbols.get] at listed
  | other before table registry keeps ih =>
    obtain ⟨warnings, same⟩ := registry
    refine ⟨keeps, ?_, by rw [table]; exact ih.titled⟩
    rw [same]
    exact ih.registry.configure rfl ih.registry.links ih.registry.tiers

theorem table_callWrapper (session : Session) (name : String) :
    (session.callWrapper name).2.compiler.table = session.compiler.table := by
  unfold Session.callWrapper
  dsimp only
  split
  · rfl
  · split <;> rfl

theorem files_callWrapper (session : Session) (name : String) :
    (session.callWrapper name).2.files = session.files := by
  unfold Session.callWrapper
  dsimp only
  split
  · rfl
  · split <;> rfl

/-- Loading a unit and calling it leaves the symbols and the files alone. -/
theorem execute_kept (session : Session) (name : String) (artifacts : List Artifact) (outside : Outside) :
    (session.execute name artifacts outside).2.compiler.table = session.compiler.table ∧
      (session.execute name artifacts outside).2.files = session.files ∧
      session.registry.SameRoots (session.execute name artifacts outside).2.registry := by
  have loaded := session.roots_loadArtifacts artifacts outside
  obtain ⟨registry, same⟩ := session.loadArtifacts_registry artifacts outside
  rw [same] at loaded
  obtain ⟨reason, failed⟩ | ⟨-, -, ran⟩ := session.execute_cases name artifacts outside
  · rw [failed, same]
    exact ⟨rfl, rfl, loaded⟩
  · rw [ran, same]
    exact ⟨table_callWrapper _ _, files_callWrapper _ _, loaded.trans (roots_callWrapper _ _)⟩

/-- What an evaluation does to symbols, files and roots: no more than its compilation. -/
theorem evaluate_compiler (session : Session) (decls : List Decl) (candidate : String) (outside : Outside) :
    ∃ source, (session.evaluate decls candidate outside).2.compiler.table =
        (session.compiler.compileWith source outside.emission).2.table ∧
      (session.evaluate decls candidate outside).2.files = session.files ∧
      session.registry.SameRoots (session.evaluate decls candidate outside).2.registry := by
  unfold Session.evaluate
  dsimp only
  generalize Wrapper.wrap session.config.wrap decls _ candidate = unit
  refine ⟨unit.source, ?_⟩
  obtain ⟨same, roots, -⟩ := session.compiler.compile_orderly unit.source outside.emission
  generalize session.compiler.compileWith unit.source outside.emission = answer at same roots
  obtain ⟨refusal | compiled, compiler⟩ := answer
  · exact ⟨rfl, same, roots⟩
  · dsimp only
    obtain ⟨table, files, ran⟩ := execute_kept { session with
      compiler, unfinished := insertName unit.name session.unfinished } unit.name compiled.artifacts outside
    split
    all_goals
      rename_i called
      rw [called] at table files ran
      exact ⟨table, files.trans same, roots.trans ran⟩

/-- What an evaluation leaves behind keeps the frames only if what it found did. -/
theorem KeepsFrames.of_evaluate {session : Session} {decls : List Decl} {candidate : String} {outside : Outside}
    (keeps : (session.evaluate decls candidate outside).2.KeepsFrames) : session.KeepsFrames := by
  obtain ⟨source, -, files, roots⟩ := session.evaluate_compiler decls candidate outside
  exact roots.symm.keepsFrames_of_files files.symm keeps

variable {session : Session}

theorem Reached.evaluate (reached : session.Reached) (decls : List Decl) (candidate : String) (outside : Outside)
    (spares : (session.evaluate decls candidate outside).2.compiler.table.symbols.SparesFrames) :
    (session.evaluate decls candidate outside).2.Reached := by
  unfold Session.evaluate at spares ⊢
  dsimp only at spares ⊢
  generalize Wrapper.wrap session.config.wrap decls _ candidate = unit at spares ⊢
  have compile := @Reached.compile session reached unit.source outside.emission
  have load := @Reached.load session unit.source outside.emission
  generalize session.compiler.compileWith unit.source outside.emission = answer at spares compile load
  obtain ⟨refusal | compiled, compiler⟩ := answer
  · exact compile spares
  · dsimp only at spares ⊢
    obtain ⟨table, -⟩ := execute_kept { session with
      compiler, unfinished := insertName unit.name session.unfinished } unit.name compiled.artifacts outside
    have own : compiler.table.symbols.SparesFrames := by
      rw [← show _ = compiler.table from table]
      split at spares
      all_goals
        rename_i called
        rw [called]
        exact spares
    have loaded := load reached rfl own (insertName unit.name session.unfinished) outside
    have ended : Reached (execute { session with
        compiler, unfinished := insertName unit.name session.unfinished } unit.name compiled.artifacts outside).2 := by
      obtain ⟨reason, failed⟩ | ⟨-, -, ran⟩ := execute_cases { session with
        compiler, unfinished := insertName unit.name session.unfinished } unit.name compiled.artifacts outside
      · rw [failed]
        exact loaded
      · rw [ran]
        exact loaded.call unit.name
    split
    all_goals
      rename_i called
      rw [called] at ended
    · exact ended.other rfl ⟨_, rfl⟩ ended.orderly.roots
    · exact ended

theorem Reached.process (reached : session.Reached) (text : String) (outside : Outside)
    (spares : (session.process text outside).2.compiler.table.symbols.SparesFrames)
    (keeps : (session.process text outside).2.KeepsFrames) : (session.process text outside).2.Reached := by
  unfold Session.process at spares keeps ⊢
  dsimp only at spares keeps ⊢
  cases parsed : Fragment.parse (session.pending.getD "" ++ text) (toString session.line) with
  | incomplete _ | blank | malformed _ => exact reached.other rfl ⟨_, rfl⟩ reached.orderly.roots
  | declarations decls =>
    simp only [parsed] at spares keeps ⊢
    refine Reached.evaluate (reached.other ?_ ?_ keeps.of_evaluate) decls _ outside spares
    · exact (advance_advanced _ _).table
    · unfold advance
      dsimp only
      split
      · exact ⟨_, rfl⟩
      · split <;> exact ⟨_, rfl⟩

theorem Reached.run (reached : session.Reached) (code wrapper : String) (outside : Outside)
    (spares : (session.run code wrapper outside).2.compiler.table.symbols.SparesFrames) :
    (session.run code wrapper outside).2.Reached := by
  unfold Session.run at spares ⊢
  split at spares
  · exact reached
  · exact reached
  · exact reached
  · rename_i decls _
    have quiet : (session.modifyMachine fun machine =>
        { machine with context := { machine.context with sink := .discard } }).Reached :=
      reached.other rfl ⟨_, rfl⟩ reached.orderly.roots
    have ran := quiet.evaluate decls wrapper outside spares
    dsimp only
    exact ran.other rfl ⟨_, rfl⟩ ran.orderly.roots

/-- Code that is run adds symbols only. -/
theorem run_extends (session : Session) (code wrapper : String) (outside : Outside) :
    session.compiler.table.symbols.Extends (session.run code wrapper outside).2.compiler.table.symbols := by
  unfold Session.run
  split
  · exact .refl _
  · exact .refl _
  · exact .refl _
  · rename_i decls _
    obtain ⟨source, table, -⟩ := evaluate_compiler (session.modifyMachine fun machine =>
        { machine with context := { machine.context with sink := .discard } }) decls wrapper outside
    have grows := (session.modifyMachine fun machine =>
        { machine with context := { machine.context with sink := .discard } }).compiler.compile_extends source
          outside.emission
    rw [← table] at grows
    exact grows

theorem Reached.start (reached : session.Reached) (outside : String → Outside)
    (spares : (session.start outside).2.compiler.table.symbols.SparesFrames) :
    (session.start outside).2.Reached := by
  have first := @Reached.run session reached session.config.bootstrap "cmd-1" (outside "cmd-1")
  unfold Session.start at spares ⊢
  generalize session.run session.config.bootstrap "cmd-1" (outside "cmd-1") = result at first spares
  obtain ⟨outcome, after⟩ := result
  cases outcome with
  | success value =>
    dsimp only at first spares ⊢
    split at spares
    · rename_i empty
      simp only [empty, if_true]
      exact first spares
    · rename_i given
      simp only [given]
      have ran := first (spares.of_extends (after.run_extends _ _ _))
      exact ran.run _ _ _ spares
  | failure _ | exit | skip | buffer _ => exact first spares

theorem Reached.setMode (reached : session.Reached) (enabled : Bool) (outside : String → Outside)
    (spares : (session.setShared enabled outside).2.compiler.table.symbols.SparesFrames) :
    (session.setShared enabled outside).2.Reached := by
  have switched := @Reached.setShared session reached enabled
  unfold Session.setShared at spares ⊢
  generalize session.registry.setShared enabled = answer at switched spares
  obtain ⟨replaced, registry⟩ := answer
  cases replaced with
  | false => exact switched
  | true =>
    dsimp only at switched spares ⊢
    have cleared : Reached { session.setRegistry registry with
        ledger := {}, sources := [], unfinished := [],
        compiler := (session.setRegistry registry).compiler.reset } :=
      switched.reset.other rfl ⟨_, rfl⟩ switched.orderly.roots
    exact cleared.start outside spares

theorem Reached.addLibraries (reached : session.Reached) (tier : Tier) (coordinates : List String)
    (keeps : (session.addLibraries tier coordinates).2.KeepsFrames) :
    (session.addLibraries tier coordinates).2.Reached := by
  unfold Session.addLibraries at keeps ⊢
  split at keeps
  · exact reached
  · exact reached.addPaths tier _ keeps

end Session

instance (S : Symbols) : Decidable S.SparesFrames :=
  inferInstanceAs (Decidable (∀ own ∈ S.foreigns, own.1 ∉ reservedSymbols))

namespace Session

/-- A session with a library that provides a function by some name. -/
def provided (symbol : String) : Session :=
  ((Session.new {} (Files.ofList [("cp/rt.ll", "define i64 @" ++ symbol ++ "() \x7b\nret i64 0\n\x7d")])).addPaths
    .runtime ["cp"]).2

end Session

namespace Machine

end Machine

end ScriptShell
