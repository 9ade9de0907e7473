import ScriptShell.Proofs.Termination.Calls
import ScriptShell.Proofs.Soundness.Loading
import ScriptShell.Proofs.Registry.Closure
import ScriptShell.Proofs.Registry.Operations

/-! Loaded code keeps its frames. As long as no library provides the functions that keep them, code that
is linked has them bound to the primitive ones, and whatever it leads to is linked as well. This holds
however code is loaded, linked and looked up, and it is all that calls need to end. -/
namespace ScriptShell

/-- A library leaves the functions alone that keep the frames. -/
def FunctionTable.KeepsFrames (library : FunctionTable) : Prop :=
  ∀ symbol ∈ Machine.frameSymbols, library.lookup symbol = none

/-- So do all library files that the roots of a registry stand for. -/
def Registry.KeepsFrames (registry : Registry) (files : Files) : Prop :=
  ∀ tier, ∀ path ∈ (registry.tier tier).roots.flatMap (Classpath.expand files), ∀ loaded,
    Classpath.load? registry.toolchain files path = some loaded → FunctionTable.KeepsFrames loaded.functions

/-- A target goes by a symbol, and only primitive functions keep frames. -/
def Target.Keeps (symbol : String) : Target → Prop
  | .procedure _ own => own = symbol ∧ symbol ∉ Machine.frameSymbols
  | .primitive own => own.symbol = symbol
  | .foreign _ => symbol ∉ Machine.frameSymbols

/-- Loaded code in order: linked code has all that it calls. -/
structure Image.Orderly (image : Image) : Prop where
  artifact : image.artifact.Orderly
  bound : ∀ bindings, image.link = .linked bindings → ∀ symbol ∈ image.artifact.imports,
    ∃ target, bindings.lookup symbol = some target
  keeps : ∀ symbol target, image.link.bindings.lookup symbol = some target → target.Keeps symbol

structure Registry.Orderly (registry : Registry) : Prop where
  images : ∀ image ∈ registry.images, image.Orderly
  closed : registry.Closed
  links : ∀ library ∈ registry.links, FunctionTable.KeepsFrames library
  tiers : ∀ tier library, (registry.tier tier).library = some library → FunctionTable.KeepsFrames library

theorem FunctionTable.KeepsFrames.append {first second : FunctionTable} (one : FunctionTable.KeepsFrames first)
    (two : FunctionTable.KeepsFrames second) : FunctionTable.KeepsFrames (first ++ second) := by
  intro symbol listed
  rw [List.lookup_append, one symbol listed, two symbol listed]
  rfl

namespace Classpath

variable {tools : Toolchain} {files : Files}

/-- A library that is being put together leaves them alone. -/
structure Build.KeepsFrames (build : Build) : Prop where
  defined : FunctionTable.KeepsFrames build.defined
  shared : FunctionTable.KeepsFrames build.shared

theorem Build.KeepsFrames.add {build : Build} {path : String} (keeps : build.KeepsFrames)
    (own : ∀ loaded, load? tools files path = some loaded → FunctionTable.KeepsFrames loaded.functions) :
    (build.add tools files path).KeepsFrames := by
  unfold Build.add
  split
  · exact ⟨keeps.defined, keeps.shared⟩
  · rename_i functions loaded
    exact ⟨keeps.defined, keeps.shared.append (own _ loaded)⟩
  · rename_i functions loaded
    split
    · exact ⟨keeps.defined, keeps.shared⟩
    · exact ⟨keeps.defined.append (own _ loaded), keeps.shared⟩

theorem build_keepsFrames {roots : List String} (keeps : ∀ path ∈ roots.flatMap (expand files), ∀ loaded,
      load? tools files path = some loaded → FunctionTable.KeepsFrames loaded.functions) :
    FunctionTable.KeepsFrames (build tools files roots).functions := by
  have run : ∀ (paths : List String) (build : Build), build.KeepsFrames →
      (∀ path ∈ paths, ∀ loaded, load? tools files path = some loaded →
        FunctionTable.KeepsFrames loaded.functions) →
      (paths.foldl (Build.add tools files) build).KeepsFrames := by
    intro paths
    induction paths with
    | nil => exact fun build kept _ => kept
    | cons path rest ih =>
      intro build kept each
      rw [List.foldl_cons]
      refine ih (build.add tools files path) (kept.add ?_) fun other listed => ?_
      · exact each path List.mem_cons_self
      · exact each other (List.mem_cons_of_mem _ listed)
  have ended := run (roots.flatMap (expand files)) {} ⟨fun _ _ => rfl, fun _ _ => rfl⟩ keeps
  exact ended.defined.append ended.shared

end Classpath

namespace Registry

variable {registry : Registry} {files : Files} {tables : List FunctionTable} {symbol : String}

/-- Frames are kept by primitive functions, which come in front of those of the process. -/
theorem frame_primitive (frame : symbol ∈ Machine.frameSymbols) :
    ∃ primitive : Primitive, Primitive.ofSymbol? symbol = some primitive := by
  simp only [Machine.frameSymbols, List.mem_cons, List.not_mem_nil, or_false] at frame
  obtain rfl | rfl := frame
  · exact ⟨_, Primitive.ofSymbol?_eq .enter⟩
  · exact ⟨_, Primitive.ofSymbol?_eq .leave⟩

theorem outerTarget?_keeps (libs : ∀ library ∈ tables, FunctionTable.KeepsFrames library)
    (found : registry.outerTarget? tables symbol = some target) : target.Keeps symbol := by
  obtain own | ⟨-, outer⟩ := (Option.orElse_eq_some _ _ _).mp found
  · obtain ⟨function, listed, rfl⟩ := Option.map_eq_some_iff.mp own
    obtain ⟨library, present, own⟩ := List.exists_of_findSome?_eq_some listed
    intro frame
    rw [libs library present symbol frame] at own
    cases own
  · obtain own | ⟨other, host⟩ := (Option.orElse_eq_some _ _ _).mp outer
    · obtain ⟨primitive, named, rfl⟩ := Option.map_eq_some_iff.mp own
      exact Primitive.symbol_of_ofSymbol? named
    · obtain ⟨function, -, rfl⟩ := Option.map_eq_some_iff.mp host
      intro frame
      obtain ⟨primitive, known⟩ := frame_primitive frame
      rw [known] at other
      cases other

theorem artifactTarget?_keeps (images : ∀ image ∈ registry.images, image.Orderly)
    (found : registry.artifactTarget? symbol = some target) : target.Keeps symbol := by
  unfold artifactTarget? at found
  obtain ⟨entry, listed, rfl⟩ := Option.map_eq_some_iff.mp found
  refine ⟨rfl, ?_⟩
  have has := List.find?_some listed
  simp only [Option.any_eq_true] at has
  obtain ⟨image, loaded, own⟩ := has
  obtain ⟨procedure, own⟩ := Option.isSome_iff_exists.mp ((Bool.and_eq_true _ _).mp own).1
  exact ((images image (Array.mem_of_getElem? loaded)).artifact _ (mem_of_lookup own)).name

theorem target?_keeps (images : ∀ image ∈ registry.images, image.Orderly)
    (libs : ∀ library ∈ tables, FunctionTable.KeepsFrames library)
    (found : registry.target? seesArtifacts tables symbol = some target) : target.Keeps symbol := by
  unfold Registry.target? at found
  obtain own | ⟨-, outer⟩ := (Option.orElse_eq_some _ _ _).mp found
  · split at own
    · exact artifactTarget?_keeps images own
    · cases own
  · exact outerTarget?_keeps libs outer

/-- What an artifact calls is among its bindings. -/
theorem bindings?_bound {artifact : Artifact}
    (bound : registry.bindings? seesArtifacts tables artifact = some bindings)
    (listed : symbol ∈ artifact.imports) : ∃ target, bindings.lookup symbol = some target := by
  replace bound := (bindings?_eq_some.mp bound).2
  generalize artifact.imports = names at bound listed
  induction names generalizing bindings with
  | nil => cases listed
  | cons name rest ih =>
    simp only [List.mapM_cons, Option.pure_def, Option.bind_eq_bind, Option.bind_eq_some_iff,
      Option.some.injEq] at bound
    obtain ⟨first, one, others, more, rfl⟩ := bound
    obtain ⟨target, -, rfl⟩ := Option.map_eq_some_iff.mp one
    by_cases same : symbol = name
    · exact ⟨target, by simp [same]⟩
    · obtain ⟨target, found⟩ := ih more ((List.mem_cons.mp listed).resolve_left same)
      refine ⟨target, ?_⟩
      rw [List.lookup_cons, beq_eq_false_iff_ne.mpr same]
      exact found

theorem bindings?_keeps (images : ∀ image ∈ registry.images, image.Orderly)
    (libs : ∀ library ∈ tables, FunctionTable.KeepsFrames library)
    (bound : registry.bindings? seesArtifacts tables artifact = some bindings)
    (found : bindings.lookup symbol = some target) : target.Keeps symbol := by
  obtain ⟨own, -, made⟩ := mem_of_mapM_option (bindings?_eq_some.mp bound).2 (mem_of_lookup found)
  obtain ⟨_, provided, same⟩ := Option.map_eq_some_iff.mp made
  cases same
  exact target?_keeps images libs provided

theorem orderly_linkOne (images : ∀ image ∈ registry.images, image.Orderly)
    (links : ∀ library ∈ registry.links, FunctionTable.KeepsFrames library) (index : Nat) :
    ∀ image ∈ (registry.linkOne index).images, image.Orderly := by
  intro image listed
  obtain ⟨place, inside, rfl⟩ := Array.mem_iff_getElem.mp listed
  simp only [Registry.linkOne, Array.getElem_modify]
  have before := images _ (Array.getElem_mem (by simpa [Registry.linkOne] using inside))
  split
  · split
    · rename_i bindings bound
      refine ⟨before.artifact, ?_, fun symbol target found => bindings?_keeps images links bound found⟩
      rintro _ ⟨⟩ symbol listed
      exact bindings?_bound bound listed
    · exact ⟨before.artifact, by rintro _ ⟨⟩, by rintro _ _ ⟨⟩⟩
  · exact before

theorem orderly_linkReached (images : ∀ image ∈ registry.images, image.Orderly)
    (links : ∀ library ∈ registry.links, FunctionTable.KeepsFrames library) (turns : Nat)
    (pending : List Nat) : ∀ image ∈ (registry.linkReached turns pending).images, image.Orderly := by
  induction turns generalizing registry pending with
  | zero => exact images
  | succ turns ih =>
    unfold linkReached
    split
    · exact images
    · exact ih (orderly_linkOne images links _) links _

theorem orderly_spreadFailure (images : ∀ image ∈ registry.images, image.Orderly) (turns : Nat) :
    ∀ image ∈ (registry.spreadFailure turns).images, image.Orderly := by
  induction turns generalizing registry with
  | zero => exact images
  | succ turns ih =>
    unfold spreadFailure
    split
    · refine ih fun image listed => ?_
      obtain ⟨before, present, rfl⟩ := Array.mem_map.mp listed
      split
      · exact ⟨(images before present).artifact, by rintro _ ⟨⟩, by rintro _ _ ⟨⟩⟩
      · exact images before present
    · exact images

/-- The same toolchain and the same roots. -/
structure SameRoots (before after : Registry) : Prop where
  toolchain : after.toolchain = before.toolchain
  roots : ∀ tier, (after.tier tier).roots = (before.tier tier).roots

theorem SameRoots.refl (registry : Registry) : registry.SameRoots registry := ⟨rfl, fun _ => rfl⟩

theorem SameRoots.trans {before between after : Registry} (first : before.SameRoots between)
    (second : between.SameRoots after) : before.SameRoots after :=
  ⟨second.toolchain.trans first.toolchain, fun tier => (second.roots tier).trans (first.roots tier)⟩

theorem SameRoots.symm {before after : Registry} (same : before.SameRoots after) : after.SameRoots before :=
  ⟨same.toolchain.symm, fun tier => (same.roots tier).symm⟩

theorem SameRoots.keepsFrames {before after : Registry} (same : before.SameRoots after)
    (keeps : before.KeepsFrames files) : after.KeepsFrames files := by
  intro tier path listed loaded
  rw [same.roots] at listed
  rw [same.toolchain]
  exact keeps tier path listed loaded

/-- Over the same files. -/
theorem SameRoots.keepsFrames_of_files {before after : Registry} {files' : Files} (same : before.SameRoots after)
    (unmoved : files' = files) (keeps : before.KeepsFrames files) : after.KeepsFrames files' := by
  rw [unmoved]
  exact same.keepsFrames keeps

/-- There is nothing to load without roots. -/
theorem keepsFrames_of_rootless (registry : Registry) (files : Files) (runtime : registry.runtime.roots = [])
    (compiler : registry.compiler.roots = []) (plugin : registry.plugin.roots = []) :
    registry.KeepsFrames files := by
  intro tier path listed
  cases tier <;> simp [Registry.tier, runtime, compiler, plugin] at listed

theorem sameRoots_library (registry : Registry) (files : Files) (tier : Tier) :
    registry.SameRoots (registry.library files tier).2 := by
  unfold Registry.library
  split
  · exact .refl registry
  · refine ⟨?_, fun other => ?_⟩
    · cases tier <;> rfl
    · cases tier <;> cases other <;> rfl

theorem sameRoots_libraries (registry : Registry) (files : Files) (tiers : List Tier) :
    registry.SameRoots (registry.libraries files tiers).2 := by
  induction tiers generalizing registry with
  | nil => exact .refl registry
  | cons tier rest ih =>
    rw [Registry.libraries]
    exact (sameRoots_library registry files tier).trans (ih _)

theorem sameRoots_currentLoader (registry : Registry) (files : Files) (tier : Tier) :
    registry.SameRoots (registry.currentLoader files tier).2 := by
  unfold Registry.currentLoader
  split
  · exact .refl registry
  · obtain ⟨toolchain, roots⟩ := sameRoots_libraries registry files (registry.visibleTiers tier)
    dsimp only
    split
    · refine ⟨toolchain, fun other => (Eq.trans ?_ (roots other))⟩
      cases other <;> rfl
    · refine ⟨Eq.trans ?_ toolchain, fun other => (Eq.trans ?_ (roots other))⟩
      · cases tier <;> rfl
      · cases tier <;> cases other <;> rfl

theorem sameRoots_lookup (registry : Registry) (loader : Loader) (symbol : String) :
    registry.SameRoots (registry.lookup loader symbol).2 := by
  obtain ⟨images, same⟩ := perform_find registry {} loader symbol
  rw [show (registry.lookup loader symbol).2 = _ from same]
  exact ⟨rfl, fun _ => rfl⟩

theorem sameRoots_isVisible (registry : Registry) (loader : Loader) (symbol : String) :
    registry.SameRoots (registry.isVisible loader symbol).2 := by
  have looked := sameRoots_lookup registry loader symbol
  unfold isVisible
  split <;> (rename_i found; rwa [found] at looked)

theorem sameRoots_resolve (registry : Registry) (loader : Loader) (name : String) :
    registry.SameRoots (registry.resolve loader name).2 := by
  have looked := sameRoots_lookup registry loader (name ++ ".$main")
  unfold resolve
  split <;> (rename_i found; rwa [found] at looked)

theorem sameRoots_evaluate (registry : Registry) (loader : Loader) (machine : Machine) (symbol : String)
    (code : Code) : registry.SameRoots (registry.evaluate loader machine symbol code).2.2 := by
  obtain ⟨images, same⟩ := perform_evaluate registry {} loader machine symbol code
  rw [show (registry.evaluate loader machine symbol code).2.2 = _ from same]
  exact ⟨rfl, fun _ => rfl⟩

theorem sameRoots_setShared (registry : Registry) (enabled : Bool) :
    registry.SameRoots (registry.setShared enabled).2 := by
  obtain ⟨-, same⟩ | ⟨-, -, -, same⟩ | ⟨-, -, same⟩ := setShared_cases registry enabled <;> rw [same]
  · exact .refl registry
  · exact ⟨rfl, fun tier => by cases tier <;> rfl⟩
  · exact ⟨rfl, fun tier => by cases tier <;> rfl⟩

theorem roots_setPlugins (registry : Registry) (enabled : Bool) (tier : Tier) :
    ((registry.setPlugins enabled).tier tier).roots = (registry.tier tier).roots := by
  rw [setPlugins_eq]
  split
  · rfl
  · cases tier <;> rfl

/-- Nothing but code changes when code is linked. -/
structure SameTiers (before after : Registry) : Prop where
  links : after.links = before.links
  tiers : ∀ tier, after.tier tier = before.tier tier

theorem sameTiers_linkReached (registry : Registry) (turns : Nat) (pending : List Nat) :
    registry.SameTiers (registry.linkReached turns pending) := by
  induction turns generalizing registry pending with
  | zero => exact ⟨rfl, fun _ => rfl⟩
  | succ turns ih =>
    unfold linkReached
    split
    · exact ⟨rfl, fun _ => rfl⟩
    · exact ⟨(ih _ _).links, (ih _ _).tiers⟩

theorem sameTiers_spreadFailure (registry : Registry) (turns : Nat) :
    registry.SameTiers (registry.spreadFailure turns) := by
  induction turns generalizing registry with
  | zero => exact ⟨rfl, fun _ => rfl⟩
  | succ turns ih =>
    unfold spreadFailure
    split
    · exact ⟨(ih _).links, (ih _).tiers⟩
    · exact ⟨rfl, fun _ => rfl⟩

theorem Orderly.linkAll (orderly : registry.Orderly) (pending : List Nat) :
    (registry.linkAll pending).Orderly := by
  have reached := sameTiers_linkReached registry registry.images.size pending
  have spread := sameTiers_spreadFailure (registry.linkReached registry.images.size pending)
    registry.images.size
  constructor
  case images =>
    exact orderly_spreadFailure (orderly_linkReached orderly.images orderly.links _ pending) _
  case closed => exact (orderly.closed.linkAll pending).1
  case links =>
    rw [Registry.linkAll, spread.links, reached.links]
    exact orderly.links
  case tiers =>
    intro tier library
    rw [Registry.linkAll, spread.tiers, reached.tiers]
    exact orderly.tiers tier library

/-- Everything that has been linked may be called. -/
theorem Orderly.allReady (orderly : registry.Orderly) :
    Image.AllReady registry.IsLinked registry.images := by
  intro index linked image loaded
  obtain ⟨bindings, state⟩ := linked
  have own := orderly.images image (Array.mem_of_getElem? loaded)
  have link : image.link = .linked bindings := by simpa [linkState, loaded] using state
  have frame : ∀ primitive : Primitive, primitive.symbol ∈ Machine.frameSymbols →
      ∀ entry ∈ image.artifact.procedures, entry.2.isBare = false →
      image.target? index primitive.symbol = some (.primitive primitive) := by
    intro primitive listed entry present framed
    have absent : image.artifact.procedures.lookup primitive.symbol = none := by
      by_contra found
      obtain ⟨procedure, found⟩ := Option.ne_none_iff_exists'.mp found
      exact (own.artifact _ (mem_of_lookup found)).name listed
    have called : primitive.symbol ∈ entry.2.calls := by
      obtain ⟨name, procedure⟩ := entry
      cases procedure with
      | function frame params body =>
        cases frame with
        | none => cases framed
        | some frame => exact List.mem_append_left _ listed
      | method _ _ _ | construct _ _ _ _ _ | ensure _ _ _ => exact List.mem_append_left _ listed
    have imported : primitive.symbol ∈ image.artifact.imports := by
      simp only [Artifact.imports, List.mem_eraseDups, List.mem_filter, List.mem_flatMap]
      exact ⟨⟨entry, present, called⟩, by simp [absent]⟩
    obtain ⟨target, bound⟩ := own.bound bindings link _ imported
    have keeps := own.keeps primitive.symbol target (by rw [link]; exact bound)
    have same : target = .primitive primitive := by
      cases target with
      | procedure _ _ => exact absurd listed keeps.2
      | foreign _ => exact absurd listed keeps
      | primitive other => rw [Primitive.symbol_injective keeps]
    simp only [Image.target?, absent, Option.isSome_none, Bool.false_eq_true, if_false, link,
      LinkState.bindings, bound, same]
  constructor
  case orderly => exact own.artifact
  case enter => exact frame .enter (by simp [Machine.frameSymbols])
  case leave => exact frame .leave (by simp [Machine.frameSymbols])
  case targets =>
    intro symbol target plain found
    unfold Image.target? at found
    split at found
    · cases found
      exact ⟨⟨bindings, state⟩, rfl⟩
    · have keeps := own.keeps symbol target found
      cases target with
      | procedure place other =>
        refine ⟨orderly.closed index place ?_, keeps.1⟩
        rw [state, ← link]
        exact List.mem_filterMap.mpr ⟨_, mem_of_lookup found, rfl⟩
      | foreign _ => exact ⟨trivial, trivial⟩
      | primitive other =>
        obtain rfl : other.symbol = symbol := keeps
        exact ⟨plain, trivial⟩

theorem Orderly.lookup (orderly : registry.Orderly) (loader : Loader) (symbol : String) :
    (registry.lookup loader symbol).2.Orderly := by
  unfold Registry.lookup
  split
  · exact orderly
  · split
    · exact orderly
    · dsimp only
      split <;> exact orderly.linkAll _

theorem Orderly.isVisible (orderly : registry.Orderly) (loader : Loader) (symbol : String) :
    (registry.isVisible loader symbol).2.Orderly := by
  have looked := orderly.lookup loader symbol
  unfold Registry.isVisible
  split <;> (rename_i found; rwa [found] at looked)

theorem Orderly.resolve (orderly : registry.Orderly) (loader : Loader) (name : String) :
    (registry.resolve loader name).2.Orderly := by
  have looked := orderly.lookup loader (name ++ ".$main")
  unfold Registry.resolve
  split <;> (rename_i found; rwa [found] at looked)

theorem Orderly.evaluate (orderly : registry.Orderly) (loader : Loader) (machine : Machine)
    (symbol : String) (code : Code) : (registry.evaluate loader machine symbol code).2.2.Orderly := by
  unfold Registry.evaluate
  dsimp only
  split
  · exact orderly
  · split
    · exact orderly
    · split
      · exact orderly.linkAll _
      · split <;> exact orderly.linkAll _

/-- Other libraries and settings, the same code. -/
theorem Orderly.configure {after : Registry} (orderly : registry.Orderly) (same : after.images = registry.images)
    (links : ∀ library ∈ after.links, FunctionTable.KeepsFrames library)
    (tiers : ∀ tier library, (after.tier tier).library = some library → FunctionTable.KeepsFrames library) :
    after.Orderly := by
  have states : ∀ index, after.linkState index = registry.linkState index :=
    fun index => by simp [linkState, same]
  refine ⟨by rw [same]; exact orderly.images, fun place index listed => ?_, links, tiers⟩
  rw [states] at listed
  obtain ⟨bindings, linked⟩ := orderly.closed place index listed
  exact ⟨bindings, (states index).trans linked⟩

theorem Orderly.modifyTier (orderly : registry.Orderly) (tier : Tier) {f : TierState → TierState}
    (keeps : ∀ library, (f (registry.tier tier)).library = some library → FunctionTable.KeepsFrames library) :
    (registry.modifyTier tier f).Orderly := by
  cases tier with
  | runtime =>
    refine orderly.configure rfl orderly.links fun other library found => ?_
    cases other with
    | runtime => exact keeps library found
    | compiler => exact orderly.tiers .compiler library found
    | plugin => exact orderly.tiers .plugin library found
  | compiler =>
    refine orderly.configure rfl orderly.links fun other library found => ?_
    cases other with
    | runtime => exact orderly.tiers .runtime library found
    | compiler => exact keeps library found
    | plugin => exact orderly.tiers .plugin library found
  | plugin =>
    refine orderly.configure rfl orderly.links fun other library found => ?_
    cases other with
    | runtime => exact orderly.tiers .runtime library found
    | compiler => exact orderly.tiers .compiler library found
    | plugin => exact keeps library found

theorem Orderly.library (orderly : registry.Orderly) (keeps : registry.KeepsFrames files) (tier : Tier) :
    (registry.library files tier).2.Orderly ∧
      FunctionTable.KeepsFrames (registry.library files tier).1 := by
  unfold Registry.library
  split
  · rename_i functions found
    exact ⟨orderly, orderly.tiers tier functions found⟩
  · have built := Classpath.build_keepsFrames (keeps tier)
    have changed := orderly.modifyTier tier (f := ({ · with
      library := some (Classpath.build registry.toolchain files (registry.tier tier).roots).functions }))
      (by rintro library ⟨⟩; exact built)
    exact ⟨changed.configure rfl changed.links changed.tiers, built⟩

theorem Orderly.libraries (orderly : registry.Orderly) (keeps : registry.KeepsFrames files) (tiers : List Tier) :
    (registry.libraries files tiers).2.Orderly ∧
      ∀ library ∈ (registry.libraries files tiers).1, FunctionTable.KeepsFrames library := by
  induction tiers generalizing registry with
  | nil => exact ⟨orderly, by simp [Registry.libraries]⟩
  | cons tier rest ih =>
    obtain ⟨first, built⟩ := orderly.library keeps tier
    obtain ⟨others, more⟩ := ih first ((sameRoots_library registry files tier).keepsFrames keeps)
    rw [Registry.libraries]
    exact ⟨others, List.forall_mem_cons.mpr ⟨built, more⟩⟩

theorem Orderly.currentLoader (orderly : registry.Orderly) (keeps : registry.KeepsFrames files) (tier : Tier) :
    (registry.currentLoader files tier).2.Orderly := by
  unfold Registry.currentLoader
  split
  · exact orderly
  · have built : (registry.buildLoader files tier).2.Orderly := by
      obtain ⟨kept, libs⟩ := orderly.libraries keeps (registry.visibleTiers tier)
      unfold Registry.buildLoader
      refine kept.configure rfl ?_ kept.tiers
      dsimp only
      split
      · exact libs
      · exact kept.links
    dsimp only
    split <;> dsimp only
    · have first := built.modifyTier .runtime (f := ({ · with
        loader := some (registry.buildLoader files tier).1 })) (built.tiers .runtime)
      refine first.modifyTier .compiler ?_
      exact first.tiers .compiler
    · refine built.modifyTier tier ?_
      exact built.tiers tier

/-- Code that was just loaded is not linked yet. -/
theorem Orderly.load (orderly : registry.Orderly) {artifact : Artifact} (own : artifact.Orderly)
    (artifacts loaded : List (String × Nat)) :
    Orderly { registry with images := registry.images.push { artifact }, artifacts, loaded } := by
  have states : ∀ index, index ≠ registry.images.size →
      linkState { registry with images := registry.images.push { artifact }, artifacts, loaded } index =
        registry.linkState index := by
    intro index differs
    simp only [linkState, Array.getElem?_push, differs, if_false]
  refine ⟨fun image listed => ?_, fun place index listed => ?_, orderly.links, orderly.tiers⟩
  · obtain listed | rfl := Array.mem_push.mp listed
    · exact orderly.images image listed
    · exact ⟨own, by rintro _ ⟨⟩, by rintro _ _ ⟨⟩⟩
  · by_cases fresh : place = registry.images.size
    · simp [linkState, fresh, LinkState.bindings, reached] at listed
    · rw [states place fresh] at listed
      obtain ⟨bindings, state⟩ := orderly.closed place index listed
      refine ⟨bindings, (states index ?_).trans state⟩
      rintro rfl
      rw [linkState_outside (Nat.le_refl _)] at state
      cases state

theorem Orderly.addArtifact (orderly : registry.Orderly) (keeps : registry.KeepsFrames files)
    {artifact : Artifact} (own : artifact.Orderly) : (registry.addArtifact files artifact).Orderly :=
  (orderly.currentLoader keeps .runtime).load own _ _

theorem Orderly.invalidate (orderly : registry.Orderly) (tier : Tier) : (registry.invalidate tier).Orderly := by
  unfold Registry.invalidate
  dsimp only
  split
  · have first := orderly.modifyTier .runtime (f := ({ · with loader := none })) (orderly.tiers .runtime)
    refine first.modifyTier .compiler ?_
    exact first.tiers .compiler
  · refine orderly.modifyTier tier ?_
    exact orderly.tiers tier

theorem Orderly.addPaths (orderly : registry.Orderly) (files : Files) (tier : Tier) (paths : List String) :
    (registry.addPaths files tier paths).2.Orderly := by
  unfold Registry.addPaths
  dsimp only
  split
  · exact orderly
  · have added := orderly.modifyTier tier (f := fun state => { state with
      roots := state.roots ++ paths.filter files.exists?, library := none }) (by rintro _ ⟨⟩)
    have dropped := added.invalidate tier
    split
    · have both := dropped.invalidate .compiler
      exact both.configure rfl both.links both.tiers
    · exact dropped.configure rfl dropped.links dropped.tiers

theorem Orderly.retire (orderly : registry.Orderly) : registry.retire.Orderly := by
  refine orderly.configure rfl (by rintro _ ⟨⟩) fun tier library found => ?_
  cases tier <;> cases found

theorem Orderly.setShared (orderly : registry.Orderly) (enabled : Bool) :
    (registry.setShared enabled).2.Orderly := by
  unfold Registry.setShared
  split
  · exact orderly
  · have changed : Orderly { registry with shared := enabled } :=
      orderly.configure rfl orderly.links orderly.tiers
    dsimp only
    split
    · exact changed.retire
    · exact changed

theorem Orderly.setPlugins (orderly : registry.Orderly) (enabled : Bool) :
    (registry.setPlugins enabled).Orderly := by
  unfold Registry.setPlugins
  split
  · exact orderly
  · have changed : Orderly { registry with plugins := enabled } :=
      orderly.configure rfl orderly.links orderly.tiers
    exact changed.invalidate .compiler

theorem orderly_empty (toolchain : Toolchain) : Orderly { toolchain } := by
  constructor
  case images => simp
  case closed =>
    intro place index listed
    rw [linkState_outside (Nat.zero_le _)] at listed
    cases listed
  case links => simp
  case tiers =>
    intro tier library found
    cases tier <;> cases found

end Registry

end ScriptShell
