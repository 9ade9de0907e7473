import ScriptShell.Proofs.Running.Balance
import ScriptShell.Proofs.Session.Frame
import Mathlib.Logic.Relation

/-! The modules of a session. Between the calls of entry points no module is being initialised. One that is
initialised stays so, is never initialised again, and keeps what only its initialiser writes, whatever the
session does, if its state is its own. A call that ends in a fault leaves those modules uninitialised whose
initialisation it stopped, and no others. -/
namespace ScriptShell

open Relation

/-- The code that is loaded is still loaded. -/
def Image.Stay (before after : Array Image) : Prop :=
  ∀ (index : Nat) (image : Image), before[index]? = some image →
    ∃ image', after[index]? = some image' ∧ image'.artifact = image.artifact

theorem Image.Stay.trans {first second third : Array Image} (one : Image.Stay first second)
    (two : Image.Stay second third) : Image.Stay first third := by
  intro index image loaded
  obtain ⟨image', loaded', same⟩ := one index image loaded
  obtain ⟨image'', loaded'', same'⟩ := two index image' loaded'
  exact ⟨image'', loaded'', same'.trans same⟩

theorem Image.stay_of_artifacts {before after : Array Image}
    (same : after.map (·.artifact) = before.map (·.artifact)) : Image.Stay before after := by
  intro index image loaded
  have own := congrArg (·[index]?) same
  simpa only [Array.getElem?_map, loaded, Option.map_some, Option.map_eq_some_iff] using own

theorem Image.stay_push (images : Array Image) (image : Image) : Image.Stay images (images.push image) := by
  intro index own loaded
  refine ⟨own, ?_, rfl⟩
  have small : index ≠ images.size := by
    rintro rfl
    simp at loaded
  rw [Array.getElem?_push, if_neg small]
  exact loaded

namespace Machine

variable {m : Machine} {key : CellKey} {images : Array Image}

/-- A run that catches its faults leaves the traps as they were. -/
theorem Tracks.traps {x y : Run α} (tracks : Tracks x y) (m : Machine) :
    (left (x m)).context.traps = m.context.traps := by
  cases result : y m with
  | ok value m' =>
    obtain ⟨same, traps⟩ := tracks.ok result
    rw [same]
    exact traps
  | error root raised =>
    obtain ⟨-, _, _, _, -, same, traps, -⟩ := tracks.error result
    rw [same]
    exact traps

theorem guarded_cells (m : Machine) (x : Run α) : (m.guarded x).2.cells = (left (x m.openGuard)).cells := by
  rw [run_guarded]
  cases x m.openGuard <;> rfl

/-- The traps behind a guard. -/
theorem guarded_traps {x y : Run α} (tracks : Tracks x y) (m : Machine) :
    (m.guarded x).2.context.traps = m.context.traps := by
  have traps := tracks.traps m.openGuard
  rw [run_guarded]
  cases result : x m.openGuard with
  | ok value after =>
    rw [result] at traps
    exact congrArg List.tail traps
  | error fault after =>
    rw [result] at traps
    show after.context.unwind.traps = _
    unfold Context.unwind
    rw [show after.context.traps = _ :: m.context.traps from traps]

/-- What a module owns behind a guard. -/
theorem guarded_holds {owned : String → Prop} {x y : Run α} (sealed : Sealed key owned x y)
    (state : owned (stateSymbol key.symbol)) (known : m.moduleState key ≠ ModuleState.uninitialised) :
    Holds key owned m (m.guarded x).2 := by
  obtain ⟨-, holds⟩ := sealed state m.openGuard known
  intro symbol own
  rw [guarded_cells]
  exact holds symbol own

/-- What becomes of the modules of loaded code: the traps of their initialisations are as they were, and those
that have been come to keep what is theirs. -/
structure Keeps (images : Array Image) (before after : Machine) : Prop where
  traps : after.context.traps = before.context.traps
  holds : ∀ (key : CellKey) (image : Image), images[key.image]? = some image →
    image.artifact.Tells key.symbol → before.moduleState key ≠ ModuleState.uninitialised →
    Holds key (image.artifact.Owns key.symbol) before after

variable {m' m'' : Machine}

theorem Keeps.of_same (traps : m'.context.traps = m.context.traps) (cells : m'.cells = m.cells) :
    Keeps images m m' :=
  ⟨traps, fun _ _ _ _ _ => .of_same cells⟩

theorem Keeps.trans (first : Keeps images m m') (second : Keeps images m' m'') : Keeps images m m'' where
  traps := second.traps.trans first.traps
  holds key image loaded tells known :=
    have holds := first.holds key image loaded tells known
    holds.trans (second.holds key image loaded tells (holds.moduleState tells ▸ known))

theorem Keeps.of_stay {images' : Array Image} (keeps : Keeps images' m m') (stay : Image.Stay images images') :
    Keeps images m m' where
  traps := keeps.traps
  holds key image loaded tells known := by
    obtain ⟨image', loaded', same⟩ := stay key.image image loaded
    rw [← same] at tells ⊢
    exact keeps.holds key image' loaded' tells known

/-- A run in another context, from which the machine goes back to its own. -/
theorem Keeps.inContext {context : Context} (keeps : Keeps images { m with context } m') :
    Keeps images m { m' with context := m.context } where
  traps := rfl
  holds := keeps.holds

theorem keeps_guarded {x y : Run α} (tracks : Tracks x y)
    (sealed : ∀ key, ∃ z, Sealed key (Image.Owned images key) x z) : Keeps images m (m.guarded x).2 where
  traps := guarded_traps tracks m
  holds key image loaded tells known := by
    have own : ∀ {symbol}, image.artifact.Owns key.symbol symbol → Image.Owned images key symbol := by
      intro symbol owns other loaded'
      cases loaded.symm.trans loaded'
      exact owns
    obtain ⟨z, sealed⟩ := sealed key
    have holds := guarded_holds sealed (own tells) known
    exact fun symbol owns => holds symbol (own owns)

theorem keeps_callEntry (m : Machine) (images : Array Image) (target : Target) :
    Keeps images m (m.callEntry images target).2 :=
  keeps_guarded (tracks_callTarget images callBound target [])
    fun key => ⟨_, sealed_callTarget images key (.word 0) callBound target []⟩

theorem keeps_callWord (m : Machine) (images : Array Image) (target : Target) :
    Keeps images m (m.callWord images target).2 :=
  keeps_guarded ((tracks_callTarget images callBound target []).bind fun _ => tracks_tame (tame_address _))
    fun key => ⟨_, (sealed_callTarget images key (.word 0) callBound target []).bind fun _ =>
      sealed_tame (tame_address _)⟩

/-- An entry point that is called keeps the modules, whatever comes of it. -/
theorem keeps_invoke (registry : Registry) (entry : Entry) (m : Machine) :
    Keeps registry.images m ((registry.invoke entry (some m)).2.getD m) := by
  have keeps := keeps_callEntry m registry.images entry.target
  unfold Registry.invoke
  dsimp only
  split
  · exact .of_same rfl rfl
  · split
    all_goals
      rename_i called
      rw [called] at keeps
      exact keeps

end Machine

namespace Workbench

/-- What a workbench keeps: the code that is loaded, and the modules of it that are initialised. -/
structure Settles (before after : Workbench) : Prop where
  code : Image.Stay before.registry.images after.registry.images
  machine : Machine.Keeps before.registry.images before.machine after.machine

variable {before between after : Workbench}

theorem Settles.trans (first : before.Settles between) (second : between.Settles after) :
    before.Settles after :=
  ⟨first.code.trans second.code, first.machine.trans (second.machine.of_stay first.code)⟩

/-- The same code, and a machine with the same traps and cells. -/
theorem Settles.of_same
    (code : after.registry.images.map (·.artifact) = before.registry.images.map (·.artifact))
    (traps : after.machine.context.traps = before.machine.context.traps)
    (cells : after.machine.cells = before.machine.cells) : before.Settles after :=
  ⟨Image.stay_of_artifacts code, .of_same traps cells⟩

theorem Settles.refl (bench : Workbench) : bench.Settles bench := .of_same rfl rfl rfl

/-- Code that the compiler runs is put behind what is loaded. -/
theorem keeps_evaluate (registry : Registry) (loader : Loader) (machine : Machine) (symbol : String)
    (code : Code) :
    Machine.Keeps registry.images machine (registry.evaluate loader machine symbol code).2.1 := by
  unfold Registry.evaluate
  dsimp only
  split
  · exact .of_same rfl rfl
  split
  · exact .of_same rfl rfl
  · rename_i bindings _
    have linked := Registry.sameCode_linkAll registry (Registry.reached bindings)
    split
    · exact .of_same rfl rfl
    · have stay := fun image => (Image.stay_of_artifacts linked.images).trans (Image.stay_push _ image)
      have keeps := fun image target => (Machine.keeps_callWord machine _ target).of_stay (stay image)
      split
      all_goals
        rename_i ran
        obtain rfl := congrArg Prod.snd ran
        exact keeps _ _

/-- Questions of a check settle the modules that they use. -/
theorem services_settle : services.Within Settles where
  refl := .refl
  trans := .trans
  evaluate := by
    rintro ask ⟨⟩ symbols init bench
    have fetched := Registry.sameCode_currentLoader bench.registry bench.files .compiler
    unfold evaluateInline
    dsimp only
    split
    · exact .of_same fetched.images rfl rfl
    · rename_i code _
      have ran := fetched.trans (Registry.sameCode_evaluate _
        (bench.registry.currentLoader bench.files .compiler).1 { bench.machine with context := bench.aside }
        ("$inline$" ++ toString bench.probes) code)
      refine ⟨Image.stay_of_artifacts ran.images, ?_⟩
      have keeps := (keeps_evaluate (bench.registry.currentLoader bench.files .compiler).2
        (bench.registry.currentLoader bench.files .compiler).1 { bench.machine with context := bench.aside }
        ("$inline$" ++ toString bench.probes) code).of_stay (Image.stay_of_artifacts fetched.images)
      exact keeps.inContext
  visible := by
    rintro ask ⟨⟩ symbol bench
    have fetched := Registry.sameCode_currentLoader bench.registry bench.files .runtime
    exact .of_same (fetched.trans (Registry.sameCode_isVisible _ _ _)).images rfl rfl

theorem compile_settles (compiler : Compiler) (source : String) (emission : Emission) :
    compiler.bench.Settles (compiler.compileWith source emission).2.bench :=
  Compiler.compile_within services_settle compiler source emission

end Workbench

namespace Session

/-- The workbench of a session. -/
abbrev bench (session : Session) : Workbench := session.compiler.bench

theorem stay_addArtifact (registry : Registry) (files : Files) (artifact : Artifact) :
    Image.Stay registry.images (registry.addArtifact files artifact).images :=
  (Image.stay_of_artifacts (Registry.sameCode_currentLoader registry files .runtime).images).trans
    (Image.stay_push _ _)

theorem loadArtifact_settles (session : Session) (artifact : Artifact) (outside : Outside) :
    session.bench.Settles (session.loadArtifact artifact outside).2.bench := by
  have fetched := Registry.sameCode_currentLoader session.registry session.files .runtime
  unfold loadArtifact
  split
  · exact .refl _
  · dsimp only
    obtain same | ⟨artifacts, loaded, -, same⟩ := session.registry.tryArtifact_cases session.files artifact
      (outside.loading artifact.name).1
    · rw [same]
      exact ⟨stay_addArtifact session.registry session.files artifact, .of_same rfl rfl⟩
    · rw [same]
      exact .of_same fetched.images rfl rfl

theorem loadArtifacts_settles (session : Session) (artifacts : List Artifact) (outside : Outside) :
    session.bench.Settles (session.loadArtifacts artifacts outside).2.bench := by
  induction artifacts generalizing session with
  | nil => exact .refl _
  | cons artifact rest ih =>
    have first := session.loadArtifact_settles artifact outside
    rw [loadArtifacts]
    split
    all_goals
      rename_i loaded
      rw [loaded] at first
    · exact first
    · exact first.trans (ih _)

theorem callWrapper_settles (session : Session) (name : String) :
    session.bench.Settles (session.callWrapper name).2.bench := by
  have fetched := Registry.sameCode_currentLoader session.registry session.files .runtime
  have found := fetched.trans (Registry.sameCode_resolve _
    (session.registry.currentLoader session.files .runtime).1 (name ++ "$Main"))
  unfold callWrapper
  dsimp only
  split
  · exact .of_same found.images rfl rfl
  · rename_i entry _
    have stay := Image.stay_of_artifacts found.images
    have keeps := (Machine.keeps_invoke _ entry { session.bench.machine with interrupt := false }).of_stay stay
    have calm : Machine.Keeps session.registry.images session.bench.machine
        { session.bench.machine with interrupt := false } := .of_same rfl rfl
    split <;> exact ⟨stay, calm.trans keeps⟩

theorem execute_settles (session : Session) (name : String) (artifacts : List Artifact) (outside : Outside) :
    session.bench.Settles (session.execute name artifacts outside).2.bench := by
  have loaded := session.loadArtifacts_settles artifacts outside
  obtain ⟨reason, failed⟩ | ⟨-, -, ran⟩ := session.execute_cases name artifacts outside
  · rw [failed]
    exact loaded
  · rw [ran]
    exact loaded.trans (callWrapper_settles _ name)

theorem evaluate_settles (session : Session) (decls : List Decl) (candidate : String) (outside : Outside) :
    session.bench.Settles (session.evaluate decls candidate outside).2.bench := by
  unfold evaluate
  dsimp only
  generalize Wrapper.wrap session.config.wrap decls _ candidate = unit
  have compiled := Workbench.compile_settles session.compiler unit.source outside.emission
  generalize session.compiler.compileWith unit.source outside.emission = answer at compiled
  obtain ⟨refusal | own, compiler⟩ := answer
  · exact compiled
  · dsimp only at compiled ⊢
    have ran := execute_settles { session with
      compiler, unfinished := insertName unit.name session.unfinished } unit.name own.artifacts outside
    have whole := compiled.trans ran
    split
    all_goals
      rename_i result
      rw [result] at whole
      exact whole

theorem advance_settles (session : Session) (text : String) :
    session.bench.Settles (session.advance text).bench := by
  unfold advance
  dsimp only
  split
  · exact .refl _
  · split <;> exact .of_same rfl rfl rfl

theorem process_settles (session : Session) (text : String) (outside : Outside) :
    session.bench.Settles (session.process text outside).2.bench := by
  unfold process
  dsimp only
  split
  · exact .refl _
  · exact .refl _
  · exact .refl _
  · rename_i decls _
    have taken := advance_settles { session with pending := none } (session.pending.getD "" ++ text)
    generalize advance { session with pending := none } (session.pending.getD "" ++ text) = moved at taken
    exact Workbench.Settles.trans taken (evaluate_settles moved decls _ outside)

theorem run_settles (session : Session) (code wrapper : String) (outside : Outside) :
    session.bench.Settles (session.run code wrapper outside).2.bench := by
  unfold run
  split
  · exact .refl _
  · exact .refl _
  · exact .refl _
  · rename_i decls _
    have ran := evaluate_settles (session.modifyMachine fun machine =>
      { machine with context := { machine.context with sink := .discard } }) decls wrapper outside
    have quiet : session.bench.Settles (session.modifyMachine fun machine =>
      { machine with context := { machine.context with sink := .discard } }).bench := .of_same rfl rfl rfl
    exact quiet.trans (ran.trans (.of_same rfl rfl rfl))

theorem start_settles (session : Session) (outside : String → Outside) :
    session.bench.Settles (session.start outside).2.bench := by
  have first := run_settles session session.config.bootstrap "cmd-1" (outside "cmd-1")
  unfold start
  generalize session.run session.config.bootstrap "cmd-1" (outside "cmd-1") = result at first
  obtain ⟨outcome, after⟩ := result
  cases outcome with
  | success value =>
    dsimp only at first ⊢
    split
    · exact first
    · exact first.trans (run_settles after _ _ _)
  | failure _ | exit | skip | buffer _ => exact first

theorem setShared_settles (session : Session) (enabled : Bool) (outside : String → Outside) :
    session.bench.Settles (session.setShared enabled outside).2.bench := by
  have images := Registry.images_setShared session.registry enabled
  unfold setShared
  generalize session.registry.setShared enabled = answer at images
  obtain ⟨replaced, registry⟩ := answer
  have switched : session.bench.Settles (session.setRegistry registry).bench :=
    .of_same (congrArg (·.map (·.artifact)) images) rfl rfl
  cases replaced with
  | false => exact switched
  | true =>
    exact switched.trans (start_settles { session.setRegistry registry with
      ledger := {}, sources := [], unfinished := []
      compiler := (session.setRegistry registry).compiler.reset } outside)

theorem addPaths_settles (session : Session) (tier : Tier) (paths : List String) :
    session.bench.Settles (session.addPaths tier paths).2.bench := by
  have images := Registry.images_addPaths session.registry session.files tier paths
  exact .of_same (congrArg (·.map (·.artifact)) images) rfl rfl

/-- What may happen to a session from outside. -/
inductive Step : Session → Session → Prop
  /-- Code is run under a fixed name, which is what a start consists of. -/
  | run (session : Session) (code wrapper : String) (outside : Outside) :
      Step session (session.run code wrapper outside).2
  | start (session : Session) (outside : String → Outside) : Step session (session.start outside).2
  | process (session : Session) (text : String) (outside : Outside) :
      Step session (session.process text outside).2
  | setShared (session : Session) (enabled : Bool) (outside : String → Outside) :
      Step session (session.setShared enabled outside).2
  | addPaths (session : Session) (tier : Tier) (paths : List String) : Step session (session.addPaths tier paths).2
  | addLibraries (session : Session) (tier : Tier) (coordinates : List String) :
      Step session (session.addLibraries tier coordinates).2
  /-- Output and warnings are handed out, an interrupt is requested, files change, hooks are added. -/
  | other {before after : Session} (table : after.compiler.table = before.compiler.table)
      (registry : ∃ warnings, after.registry = { before.registry with warnings })
      (cells : after.bench.machine.cells = before.bench.machine.cells)
      (context : Context.Kept before.bench.machine.context after.bench.machine.context) : Step before after

theorem Step.settles {before after : Session} (step : Step before after) : before.bench.Settles after.bench := by
  cases step with
  | run code wrapper outside => exact run_settles _ code wrapper outside
  | start outside => exact start_settles _ outside
  | process text outside => exact process_settles _ text outside
  | setShared enabled outside => exact setShared_settles _ enabled outside
  | addPaths tier paths => exact addPaths_settles _ tier paths
  | addLibraries tier coordinates =>
    unfold Session.addLibraries
    split
    · exact .refl _
    · exact addPaths_settles _ tier _
  | other table registry cells context =>
    obtain ⟨warnings, same⟩ := registry
    exact .of_same (congrArg (·.images.map (·.artifact)) same) context.traps cells

/-- Everything that happens to a session settles its modules. The induction is on what happens. -/
theorem settles_of_steps {before after : Session} (steps : ReflTransGen Step before after) :
    before.bench.Settles after.bench := by
  induction steps with
  | refl => exact .refl _
  | tail _ step ih => exact ih.trans step.settles

end Session

end ScriptShell
