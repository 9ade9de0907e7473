import ScriptShell.Proofs.Registry.Code

/-! What registries go through. A registry is asked for things one after another, from the empty one on. Here is what
each request does to the tiers, and the invariant that all of them keep: nothing that a registry has kept
is out of date, and the generations that are over are the earlier ones. -/
namespace ScriptShell.Registry

/-- What a registry may be asked for. -/
inductive Operation where
  | addPaths (tier : Tier) (paths : List String)
  | addArtifact (artifact : Artifact) (verdict : LoadVerdict)
  | setPlugins (enabled : Bool)
  | setShared (enabled : Bool)
  | fetch (tier : Tier)
  | find (loader : Loader) (symbol : String)
  | evaluate (loader : Loader) (machine : Machine) (symbol : String) (code : Code)

/-- The registry after a request. -/
def perform (registry : Registry) (files : Files) : Operation → Registry
  | .addPaths tier paths => (registry.addPaths files tier paths).2
  | .addArtifact artifact verdict => (registry.tryArtifact files artifact verdict).2
  | .setPlugins enabled => registry.setPlugins enabled
  | .setShared enabled => (registry.setShared enabled).2
  | .fetch tier => (registry.currentLoader files tier).2
  | .find loader symbol => (registry.lookup loader symbol).2
  | .evaluate loader machine symbol code => (registry.evaluate loader machine symbol code).2.2

/-- The registry after several requests. -/
def performAll (registry : Registry) (files : Files) (operations : List Operation) : Registry :=
  operations.foldl (·.perform files ·) registry

/-- Replaces all tiers. -/
def withTiers (registry : Registry) (tiers : Tier → TierState) : Registry :=
  { registry with runtime := tiers .runtime, compiler := tiers .compiler, plugin := tiers .plugin }

variable {registry : Registry} {files : Files}

@[simp]
theorem tier_withTiers (registry : Registry) (tiers : Tier → TierState) (tier : Tier) :
    (registry.withTiers tiers).tier tier = tiers tier := by
  cases tier <;> rfl

theorem modifyTier_eq (registry : Registry) (tier : Tier) (f : TierState → TierState) :
    registry.modifyTier tier f =
      registry.withTiers fun other => if other = tier then f (registry.tier other) else registry.tier other := by
  cases tier <;> rfl

/-- New roots of a tier drop the loader of another one. -/
def unseats (registry : Registry) (tier other : Tier) : Bool :=
  other = tier || (other = .compiler && tier = .plugin) || (registry.shared && other ≠ .plugin)

/-- A loader that new roots leave in place does not see them. -/
theorem not_visible_of_not_unseats {tier other : Tier} (kept : registry.unseats tier other = false) :
    tier ∉ registry.visibleTiers other := by
  cases tier <;> cases other <;> cases shared : registry.shared <;> cases plugins : registry.plugins <;>
    simp_all [unseats, visibleTiers]

/-- A tier has its loader together with another one. -/
def shares (registry : Registry) (tier other : Tier) : Bool :=
  other = tier || (registry.shared && tier ≠ .plugin && other ≠ .plugin)

/-- Sets the loader of a tier, and of those that have theirs together with it. -/
def seat (registry : Registry) (tier : Tier) (loader : Option Loader) : Registry :=
  registry.withTiers fun other =>
    { registry.tier other with
      loader := if registry.shares tier other then loader else (registry.tier other).loader }

theorem invalidate_eq (registry : Registry) (tier : Tier) : registry.invalidate tier = registry.seat tier none := by
  unfold invalidate seat shares
  cases shared : registry.shared <;> cases tier <;> rfl

theorem addPaths_eq (registry : Registry) (files : Files) (tier : Tier) (paths : List String) :
    (registry.addPaths files tier paths).2 =
      if (paths.filter files.exists?).isEmpty then registry
      else
        let added := registry.withTiers fun other =>
          { roots :=
              if other = tier then (registry.tier other).roots ++ paths.filter files.exists?
              else (registry.tier other).roots
            loader := if registry.unseats tier other then none else (registry.tier other).loader
            library := if other = tier then none else (registry.tier other).library }
        { added with announced := registry.announced ++ [(tier, paths.filter files.exists?)] } := by
  unfold addPaths
  dsimp only
  split
  · rfl
  · simp only [invalidate_eq, modifyTier_eq]
    cases shared : registry.shared <;> cases tier <;> simp [seat, shares, withTiers, tier, unseats, shared]

/-- The library of a tier, built from its roots. -/
def freshLibrary (registry : Registry) (files : Files) (tier : Tier) : FunctionTable :=
  (Classpath.build registry.toolchain files (registry.tier tier).roots).functions

/-- A loader that is as it would be built now. -/
structure Current (registry : Registry) (files : Files) (tier : Tier) (loader : Loader) : Prop where
  libraries : loader.libraries = (registry.visibleTiers tier).map (registry.freshLibrary files)
  seesArtifacts : loader.seesArtifacts = ((registry.shared && tier ≠ .plugin) || tier = .runtime)
  coalesced : loader.coalesced = (registry.shared && tier ≠ .plugin)
  generation : loader.generation = registry.generation

/-- Nothing that is kept is out of date, and the generations that are over are earlier ones. -/
structure Coherent (registry : Registry) (files : Files) : Prop where
  library : ∀ tier functions, (registry.tier tier).library = some functions →
    functions = registry.freshLibrary files tier
  loader : ∀ tier loader, (registry.tier tier).loader = some loader → registry.Current files tier loader
  begun : ∀ tier, (registry.tier tier).loader.isSome = true → registry.begun = true
  ended : ∀ generation ∈ registry.ended, generation < registry.generation
  together : registry.shared = true → registry.runtime.loader = registry.compiler.loader
  loaded : registry.loaded = registry.artifacts
  empty : registry.begun = false → registry.artifacts = []

theorem coherent_empty (toolchain : Toolchain) : ({ toolchain } : Registry).Coherent files where
  library tier functions kept := by cases tier <;> cases kept
  loader tier loader kept := by cases tier <;> cases kept
  begun tier kept := by cases tier <;> cases kept
  ended := by rintro _ ⟨⟩
  together _ := rfl
  loaded := rfl
  empty _ := rfl

/-- The same toolchain, roots, code, generation and settings. -/
structure Same (before after : Registry) : Prop where
  toolchain : after.toolchain = before.toolchain
  roots : ∀ tier, (after.tier tier).roots = (before.tier tier).roots
  images : after.images = before.images
  artifacts : after.artifacts = before.artifacts
  loaded : after.loaded = before.loaded
  generation : after.generation = before.generation
  ended : after.ended = before.ended
  shared : after.shared = before.shared
  plugins : after.plugins = before.plugins

variable {before between after : Registry}

theorem Same.refl (registry : Registry) : registry.Same registry :=
  ⟨rfl, fun _ => rfl, rfl, rfl, rfl, rfl, rfl, rfl, rfl⟩

theorem Same.trans (first : before.Same between) (second : between.Same after) : before.Same after where
  toolchain := second.toolchain.trans first.toolchain
  roots tier := (second.roots tier).trans (first.roots tier)
  images := second.images.trans first.images
  artifacts := second.artifacts.trans first.artifacts
  loaded := second.loaded.trans first.loaded
  generation := second.generation.trans first.generation
  ended := second.ended.trans first.ended
  shared := second.shared.trans first.shared
  plugins := second.plugins.trans first.plugins

theorem Same.freshLibrary (same : before.Same after) (tier : Tier) :
    after.freshLibrary files tier = before.freshLibrary files tier := by
  unfold Registry.freshLibrary
  rw [same.toolchain, same.roots]

/-- What a loader comes to goes by the roots that it sees. -/
theorem Current.congr {loader : Loader} {tier : Tier} (current : before.Current files tier loader)
    (toolchain : after.toolchain = before.toolchain) (generation : after.generation = before.generation)
    (shared : (after.shared && tier ≠ .plugin) = (before.shared && tier ≠ .plugin))
    (seen : after.visibleTiers tier = before.visibleTiers tier)
    (roots : ∀ other ∈ before.visibleTiers tier, (after.tier other).roots = (before.tier other).roots) :
    after.Current files tier loader where
  libraries := by
    rw [current.libraries, seen]
    refine List.map_congr_left fun other visible => ?_
    rw [freshLibrary, freshLibrary, toolchain, roots other visible]
  seesArtifacts := by rw [shared, current.seesArtifacts]
  coalesced := by rw [shared, current.coalesced]
  generation := by rw [generation, current.generation]

theorem visibleTiers_of_modes (shared : after.shared = before.shared) (plugins : after.plugins = before.plugins)
    (tier : Tier) : after.visibleTiers tier = before.visibleTiers tier := by
  unfold visibleTiers
  rw [shared, plugins]

theorem Same.current {loader : Loader} {tier : Tier} (same : before.Same after)
    (current : before.Current files tier loader) : after.Current files tier loader := by
  have seen := visibleTiers_of_modes same.shared same.plugins tier
  exact current.congr same.toolchain same.generation (by rw [same.shared]) seen fun other _ => same.roots other

/-- Nothing but kept libraries changed, and those are up to date. -/
structure Refreshed (files : Files) (before after : Registry) : Prop extends Same before after where
  loader : ∀ tier, (after.tier tier).loader = (before.tier tier).loader
  begun : after.begun = before.begun
  library : ∀ tier functions, (after.tier tier).library = some functions →
    functions = after.freshLibrary files tier

/-- The library of a tier is that of its roots. -/
theorem library_spec (tier : Tier) (refreshed : Refreshed files before registry) :
    (registry.library files tier).1 = registry.freshLibrary files tier ∧
      Refreshed files before (registry.library files tier).2 := by
  unfold Registry.library
  split
  · rename_i functions kept
    exact ⟨refreshed.library tier functions kept, refreshed⟩
  · dsimp only
    generalize written : ({ registry.modifyTier tier _ with warnings := _ } : Registry) = after
    have same : registry.Same after := by
      subst written
      constructor <;> cases tier <;> first | rfl | (intro other; cases other <;> rfl)
    refine ⟨rfl, refreshed.toSame.trans same, ?_, ?_, ?_⟩
    · intro other
      rw [← refreshed.loader, ← written]
      cases tier <;> cases other <;> rfl
    · rw [← refreshed.begun, ← written]
      cases tier <;> rfl
    · intro other functions kept
      by_cases own : other = tier
      · subst own
        rw [same.freshLibrary]
        rw [← written] at kept
        cases other <;> exact (Option.some.inj kept).symm
      · rw [same.freshLibrary]
        refine refreshed.library other functions ?_
        rw [← kept, ← written]
        cases tier <;> cases other <;> first | rfl | exact absurd rfl own

/-- So are those of several tiers. -/
theorem libraries_spec (tiers : List Tier) (refreshed : Refreshed files before registry) :
    (registry.libraries files tiers).1 = tiers.map (registry.freshLibrary files) ∧
      Refreshed files before (registry.libraries files tiers).2 := by
  induction tiers generalizing registry with
  | nil => exact ⟨rfl, refreshed⟩
  | cons tier rest ih =>
    obtain ⟨same, first⟩ := library_spec tier refreshed
    obtain ⟨others, last⟩ := ih first
    refine ⟨?_, last⟩
    rw [libraries, List.map_cons]
    dsimp only
    have fresh : (registry.library files tier).2.freshLibrary files = registry.freshLibrary files :=
      funext fun other => (first.freshLibrary other).trans (refreshed.freshLibrary other).symm
    rw [others, same, fresh]

theorem Coherent.refreshed (coherent : registry.Coherent files) : Refreshed files registry registry :=
  ⟨.refl registry, fun _ => rfl, rfl, coherent.library⟩

/-- A loader was built, and is kept for its tier, or for programs and the compiler together. -/
structure Fetched (files : Files) (tier : Tier) (loader : Loader) (before after : Registry) : Prop
    extends Same before after where
  missing : (before.tier tier).loader = none
  current : before.Current files tier loader
  loaders : ∀ other, (after.tier other).loader =
    if before.shares tier other then some loader else (before.tier other).loader
  begun : after.begun = true
  library : ∀ other functions, (after.tier other).library = some functions →
    functions = after.freshLibrary files other

theorem buildLoader_spec (coherent : registry.Coherent files) (tier : Tier) :
    registry.Current files tier (registry.buildLoader files tier).1 ∧
      registry.Same (registry.buildLoader files tier).2 ∧
      (∀ other, ((registry.buildLoader files tier).2.tier other).loader = (registry.tier other).loader) ∧
      (registry.buildLoader files tier).2.begun = true ∧
      ∀ other functions, ((registry.buildLoader files tier).2.tier other).library = some functions →
        functions = registry.freshLibrary files other := by
  obtain ⟨libraries, refreshed⟩ := libraries_spec (registry.visibleTiers tier) coherent.refreshed
  obtain ⟨same, loader, -, library⟩ := refreshed
  refine ⟨⟨libraries, rfl, rfl, same.generation⟩, ?_, ?_, rfl, ?_⟩
  · exact { same with }
  · exact loader
  · intro other functions kept
    rw [← same.freshLibrary]
    exact library other functions kept

theorem currentLoader_build (coherent : registry.Coherent files) {tier : Tier}
    (missing : (registry.tier tier).loader = none) :
    registry.currentLoader files tier =
      ((registry.buildLoader files tier).1,
        (registry.buildLoader files tier).2.seat tier (some (registry.buildLoader files tier).1)) := by
  have shared := (buildLoader_spec coherent tier).2.1.shared
  have coalesced : (registry.buildLoader files tier).1.coalesced = (registry.shared && tier ≠ .plugin) := rfl
  simp only [currentLoader, missing, Option.filter_none, coalesced, modifyTier_eq, seat, shares, shared]
  cases shared : registry.shared <;> cases tier <;> simp [withTiers, Registry.tier]

theorem Same.seat (same : before.Same after) (tier : Tier) (loader : Option Loader) :
    before.Same (after.seat tier loader) := by
  refine { same with roots := fun other => ?_ }
  rw [Registry.seat, tier_withTiers]
  exact same.roots other

/-- A loader that is as it would be built is not retired. -/
theorem Coherent.present {loader : Loader} {tier : Tier} (coherent : registry.Coherent files)
    (current : registry.Current files tier loader) : registry.isRetired loader.generation = false := by
  cases retired : registry.isRetired loader.generation with
  | false => rfl
  | true =>
    have earlier := coherent.ended _ (List.contains_iff_mem.mp retired)
    rw [current.generation] at earlier
    omega

/-- A loader is handed out as it is kept, or is built. -/
theorem currentLoader_cases (coherent : registry.Coherent files) (tier : Tier) :
    (∃ loader, (registry.tier tier).loader = some loader ∧
      registry.currentLoader files tier = (loader, registry)) ∨
    ∃ loader after, registry.currentLoader files tier = (loader, after) ∧
      Fetched files tier loader registry after := by
  cases known : (registry.tier tier).loader with
  | some loader =>
    left
    have present := coherent.present (coherent.loader tier loader known)
    exact ⟨loader, rfl, by simp [currentLoader, known, Option.filter, present]⟩
  | none =>
    right
    obtain ⟨current, same, loaders, begun, library⟩ := buildLoader_spec coherent tier
    refine ⟨_, _, currentLoader_build coherent known, ?_⟩
    have kept := same.seat tier (some (registry.buildLoader files tier).1)
    refine ⟨kept, known, current, fun other => ?_, begun, fun other functions listed => ?_⟩
    · rw [seat, tier_withTiers, ← loaders other]
      simp only [shares, same.shared]
      rfl
    · rw [kept.freshLibrary]
      rw [seat, tier_withTiers] at listed
      exact library other functions listed

theorem Current.share {loader : Loader} {tier other : Tier} (current : registry.Current files tier loader)
    (shares : registry.shares tier other = true) : registry.Current files other loader := by
  by_cases same : other = tier
  · rwa [same]
  · simp only [Registry.shares, same, decide_false, Bool.false_or, Bool.and_eq_true, decide_eq_true_eq] at shares
    obtain ⟨⟨shared, first⟩, second⟩ := shares
    have seen : registry.visibleTiers other = registry.visibleTiers tier := by
      cases tier <;> cases other <;> simp_all [visibleTiers]
    exact ⟨by rw [seen, current.libraries], by simp [current.seesArtifacts, shared, first, second],
      by simp [current.coalesced, first, second], current.generation⟩

/-- The loader that is handed out is as it would be built, of a generation that has begun. -/
theorem currentLoader_spec (coherent : registry.Coherent files) (tier : Tier) :
    registry.Same (registry.currentLoader files tier).2 ∧
      registry.Current files tier (registry.currentLoader files tier).1 ∧
      (registry.currentLoader files tier).2.begun = true := by
  obtain ⟨loader, kept, same⟩ | ⟨loader, after, same, fetched⟩ := currentLoader_cases coherent tier
  · rw [same]
    exact ⟨.refl registry, coherent.loader tier loader kept,
      coherent.begun tier (Option.isSome_iff_exists.mpr ⟨loader, kept⟩)⟩
  · rw [same]
    exact ⟨fetched.toSame, fetched.current, fetched.begun⟩

theorem Coherent.fetch (coherent : registry.Coherent files) (tier : Tier) :
    (registry.currentLoader files tier).2.Coherent files := by
  obtain ⟨loader, -, same⟩ | ⟨loader, after, same, fetched⟩ := currentLoader_cases coherent tier
  · rw [same]
    exact coherent
  · rw [same]
    constructor
    case library => exact fetched.library
    case loader =>
      intro other own kept
      rw [fetched.loaders] at kept
      split at kept
      · rename_i shares
        cases kept
        exact fetched.toSame.current (fetched.current.share shares)
      · exact fetched.toSame.current (coherent.loader other own kept)
    case begun => exact fun _ _ => fetched.begun
    case ended =>
      rw [fetched.ended, fetched.generation]
      exact coherent.ended
    case together =>
      intro shared
      rw [fetched.shared] at shared
      have first := fetched.loaders .runtime
      have second := fetched.loaders .compiler
      have together := coherent.together shared
      cases tier <;> simp_all [Registry.shares, Registry.tier]
    case loaded => rw [fetched.loaded, fetched.artifacts, coherent.loaded]
    case empty => exact fun idle => absurd (idle.symm.trans fetched.begun) (by decide)

/-- The same toolchain and the same code in the same generation. -/
structure SameAge (before after : Registry) : Prop where
  toolchain : after.toolchain = before.toolchain
  artifacts : after.artifacts = before.artifacts
  loaded : after.loaded = before.loaded
  generation : after.generation = before.generation
  begun : after.begun = before.begun
  ended : after.ended = before.ended

/-- A request that only drops what is kept leaves a coherent registry, if what it leaves in place is still
as it would be built. -/
theorem Coherent.of_kept (coherent : before.Coherent files) (age : before.SameAge after)
    (library : ∀ tier functions, (after.tier tier).library = some functions →
      (before.tier tier).library = some functions ∧ (after.tier tier).roots = (before.tier tier).roots)
    (loader : ∀ tier loader, (after.tier tier).loader = some loader →
      (before.tier tier).loader = some loader ∧
        (before.Current files tier loader → after.Current files tier loader))
    (together : after.shared = true → after.runtime.loader = after.compiler.loader) : after.Coherent files where
  library tier functions kept := by
    obtain ⟨kept, roots⟩ := library tier functions kept
    rw [coherent.library tier functions kept, freshLibrary, freshLibrary, age.toolchain, roots]
  loader tier own kept :=
    have kept := loader tier own kept
    kept.2 (coherent.loader tier own kept.1)
  begun tier some := by
    obtain ⟨own, kept⟩ := Option.isSome_iff_exists.mp some
    rw [age.begun]
    exact coherent.begun tier (Option.isSome_iff_exists.mpr ⟨own, (loader tier own kept).1⟩)
  ended := by
    rw [age.ended, age.generation]
    exact coherent.ended
  together := together
  loaded := by rw [age.loaded, age.artifacts, coherent.loaded]
  empty idle := by
    rw [age.artifacts]
    exact coherent.empty (age.begun.symm.trans idle)

theorem tier_addPaths {paths : List String} (some : (paths.filter files.exists?).isEmpty = false)
    (registry : Registry) (tier other : Tier) :
    (registry.addPaths files tier paths).2.tier other =
      { roots :=
          if other = tier then (registry.tier other).roots ++ paths.filter files.exists?
          else (registry.tier other).roots
        loader := if registry.unseats tier other then none else (registry.tier other).loader
        library := if other = tier then none else (registry.tier other).library } := by
  rw [addPaths_eq, if_neg (by simp [some])]
  cases other <;> rfl

theorem sameAge_addPaths (registry : Registry) (tier : Tier) (paths : List String) :
    registry.SameAge (registry.addPaths files tier paths).2 ∧
      (registry.addPaths files tier paths).2.shared = registry.shared ∧
      (registry.addPaths files tier paths).2.plugins = registry.plugins := by
  rw [addPaths_eq]
  split <;> exact ⟨⟨rfl, rfl, rfl, rfl, rfl, rfl⟩, rfl, rfl⟩

/-- New roots drop every loader that sees them. -/
theorem Coherent.addPaths (coherent : registry.Coherent files) (tier : Tier) (paths : List String) :
    (registry.addPaths files tier paths).2.Coherent files := by
  cases some : (paths.filter files.exists?).isEmpty with
  | true =>
    rw [addPaths_eq, if_pos some]
    exact coherent
  | false =>
    obtain ⟨age, shared, plugins⟩ := @sameAge_addPaths files registry tier paths
    have tiers := tier_addPaths some registry tier
    refine coherent.of_kept age ?_ ?_ fun mode => ?_
    · intro other functions kept
      simp only [tiers] at kept ⊢
      split at kept
      · cases kept
      · rename_i apart
        exact ⟨kept, if_neg apart⟩
    · intro other own kept
      simp only [tiers] at kept
      split at kept
      · cases kept
      · rename_i stays
        have visible := visibleTiers_of_modes shared plugins other
        refine ⟨kept, fun current => ?_⟩
        refine current.congr age.toolchain age.generation (by rw [shared]) visible fun seen listed => ?_
        have apart : seen ≠ tier := by
          rintro rfl
          exact not_visible_of_not_unseats (Bool.not_eq_true _ ▸ stays) listed
        simp only [tiers, if_neg apart]
    · have drops : ∀ other : Tier, other ≠ .plugin → registry.unseats tier other = true := by
        intro other own
        simp [unseats, shared.symm.trans mode, own]
      have first := tiers .runtime
      have second := tiers .compiler
      rw [drops _ (by decide), if_pos rfl] at first second
      exact (congrArg TierState.loader first).trans (congrArg TierState.loader second).symm

theorem setPlugins_eq (registry : Registry) (enabled : Bool) :
    registry.setPlugins enabled = if registry.plugins = enabled then registry
      else ({ registry with plugins := enabled } : Registry).seat .compiler none := by
  unfold Registry.setPlugins
  rw [invalidate_eq]

theorem Coherent.setPlugins (coherent : registry.Coherent files) (enabled : Bool) :
    (registry.setPlugins enabled).Coherent files := by
  rw [setPlugins_eq]
  split
  · exact coherent
  · have tiers : ∀ other, (({ registry with plugins := enabled } : Registry).seat .compiler none).tier other =
        { registry.tier other with
          loader := if registry.shares .compiler other then none else (registry.tier other).loader } :=
      fun other => tier_withTiers _ _ other
    refine coherent.of_kept ⟨rfl, rfl, rfl, rfl, rfl, rfl⟩ ?_ ?_ fun mode => ?_
    · intro other functions kept
      simpa only [tiers, and_true] using kept
    · intro other own kept
      simp only [tiers] at kept
      split at kept
      · cases kept
      · rename_i stays
        refine ⟨kept, fun current => current.congr rfl rfl rfl ?_ fun seen _ => by rw [tiers]⟩
        cases other <;> cases shared : registry.shared <;>
          simp_all [shares, visibleTiers, seat, withTiers]
    · have mode : registry.shared = true := mode
      simp [seat, shares, withTiers, mode]

theorem tier_retire (registry : Registry) (tier : Tier) :
    registry.retire.tier tier = { roots := (registry.tier tier).roots } := by
  cases tier <;> rfl

/-- A new generation keeps nothing but the roots. -/
theorem coherent_retire (ended : ∀ generation ∈ registry.ended, generation < registry.generation) :
    registry.retire.Coherent files where
  library tier functions kept := by
    rw [tier_retire] at kept
    cases kept
  loader tier loader kept := by
    rw [tier_retire] at kept
    cases kept
  begun tier some := by
    rw [tier_retire] at some
    cases some
  ended generation listed := by
    have earlier : ∀ old ∈ registry.ended, old < registry.generation + 1 :=
      fun old member => Nat.lt_succ_of_lt (ended old member)
    simp only [Registry.retire] at listed ⊢
    split at listed
    · obtain rfl | listed := List.mem_cons.mp listed
      · exact Nat.lt_succ_self _
      · exact earlier _ listed
    · exact earlier _ listed
  together _ := rfl
  loaded := rfl
  empty _ := rfl

/-- The mode is switched: with a new generation if a loader for programs or for the compiler is kept. -/
theorem setShared_cases (registry : Registry) (enabled : Bool) :
    (registry.shared = enabled ∧ registry.setShared enabled = (false, registry)) ∨
    (registry.shared ≠ enabled ∧ registry.runtime.loader = none ∧ registry.compiler.loader = none ∧
      registry.setShared enabled = (false, { registry with shared := enabled })) ∨
    (registry.shared ≠ enabled ∧ (registry.runtime.loader.isSome || registry.compiler.loader.isSome) = true ∧
      registry.setShared enabled = (true, ({ registry with shared := enabled } : Registry).retire)) := by
  unfold Registry.setShared
  split
  · rename_i same
    exact .inl ⟨same, rfl⟩
  · rename_i differs
    dsimp only
    split
    · rename_i built
      exact .inr (.inr ⟨differs, built, rfl⟩)
    · rename_i none
      simp only [Bool.or_eq_true, not_or, Bool.not_eq_true, Option.isSome_eq_false_iff,
        Option.isNone_iff_eq_none] at none
      exact .inr (.inl ⟨differs, none.1, none.2, rfl⟩)

theorem Coherent.setShared (coherent : registry.Coherent files) (enabled : Bool) :
    (registry.setShared enabled).2.Coherent files := by
  obtain ⟨-, same⟩ | ⟨-, first, second, same⟩ | ⟨-, -, same⟩ := setShared_cases registry enabled
  · rw [same]
    exact coherent
  · rw [same]
    have tiers : ∀ other, ({ registry with shared := enabled } : Registry).tier other = registry.tier other :=
      fun other => rfl
    refine coherent.of_kept ⟨rfl, rfl, rfl, rfl, rfl, rfl⟩ (fun other functions kept => ⟨kept, rfl⟩) ?_ ?_
    · intro other own kept
      refine ⟨kept, fun current => ?_⟩
      cases other with
      | runtime => exact absurd (first.symm.trans kept) (by simp)
      | compiler => exact absurd (second.symm.trans kept) (by simp)
      | plugin => exact current.congr rfl rfl (by simp) rfl fun _ _ => rfl
    · exact fun _ => first.trans second.symm
  · rw [same]
    exact coherent_retire coherent.ended

/-- Other code under the same names in both maps. -/
theorem Coherent.of_code (coherent : registry.Coherent files) (begun : registry.begun = true) (images : Array Image)
    (artifacts : List (String × Nat)) :
    ({ registry with images, artifacts, loaded := artifacts } : Registry).Coherent files where
  library := coherent.library
  loader tier loader kept := (coherent.loader tier loader kept).congr rfl rfl rfl rfl fun _ _ => rfl
  begun := coherent.begun
  ended := coherent.ended
  together := coherent.together
  loaded := rfl
  empty idle := absurd (idle.symm.trans begun) (by decide)

/-- Both maps lose a name together, and get it together. -/
theorem Coherent.tryArtifact (coherent : registry.Coherent files) (artifact : Artifact) (verdict : LoadVerdict) :
    (registry.tryArtifact files artifact verdict).2.Coherent files := by
  have fetched := coherent.fetch .runtime
  have begun := (currentLoader_spec coherent .runtime).2.2
  cases verdict with
  | stuck => exact fetched
  | taken =>
    have added := fetched.of_code begun ((registry.currentLoader files .runtime).2.images.push { artifact })
      (bindName artifact.name (registry.currentLoader files .runtime).2.images.size
        (registry.currentLoader files .runtime).2.artifacts)
    unfold Registry.tryArtifact Registry.addArtifact
    dsimp only
    rw [fetched.loaded]
    exact added
  | refused =>
    unfold Registry.tryArtifact
    dsimp only
    split
    · rw [fetched.loaded]
      exact fetched.of_code begun _ _
    · exact fetched

theorem linkReached_eq (registry : Registry) (turns : Nat) (pending : List Nat) :
    ∃ images, registry.linkReached turns pending = { registry with images } := by
  induction turns generalizing registry pending with
  | zero => exact ⟨registry.images, rfl⟩
  | succ turns ih =>
    unfold linkReached
    split
    · exact ⟨registry.images, rfl⟩
    · obtain ⟨images, same⟩ := ih (registry.linkOne _) _
      exact ⟨images, same⟩

theorem spreadFailure_eq (registry : Registry) (turns : Nat) :
    ∃ images, registry.spreadFailure turns = { registry with images } := by
  induction turns generalizing registry with
  | zero => exact ⟨registry.images, rfl⟩
  | succ turns ih =>
    unfold spreadFailure
    split
    · obtain ⟨images, same⟩ := ih _
      exact ⟨images, same⟩
    · exact ⟨registry.images, rfl⟩

/-- Linking changes nothing but the code. -/
theorem linkAll_eq (registry : Registry) (pending : List Nat) :
    ∃ images, registry.linkAll pending = { registry with images } := by
  obtain ⟨linked, same⟩ := linkReached_eq registry registry.images.size pending
  obtain ⟨images, ended⟩ := spreadFailure_eq (registry.linkReached registry.images.size pending) registry.images.size
  refine ⟨images, ended.trans ?_⟩
  rw [same]

theorem perform_find (registry : Registry) (files : Files) (loader : Loader) (symbol : String) :
    ∃ images, registry.perform files (.find loader symbol) = { registry with images } := by
  show ∃ images, (registry.lookup loader symbol).2 = { registry with images }
  unfold Registry.lookup
  split
  · exact ⟨registry.images, rfl⟩
  · split
    · exact ⟨registry.images, rfl⟩
    · dsimp only
      split <;> exact linkAll_eq registry _

theorem perform_evaluate (registry : Registry) (files : Files) (loader : Loader) (machine : Machine)
    (symbol : String) (code : Code) :
    ∃ images, registry.perform files (.evaluate loader machine symbol code) = { registry with images } := by
  show ∃ images, (registry.evaluate loader machine symbol code).2.2 = { registry with images }
  unfold Registry.evaluate
  dsimp only
  split
  · exact ⟨registry.images, rfl⟩
  · split
    · exact ⟨registry.images, rfl⟩
    · split
      · exact linkAll_eq registry _
      · split <;> exact linkAll_eq registry _

theorem Coherent.of_images (coherent : registry.Coherent files) (images : Array Image) :
    ({ registry with images } : Registry).Coherent files :=
  coherent.of_kept ⟨rfl, rfl, rfl, rfl, rfl, rfl⟩ (fun _ _ kept => ⟨kept, rfl⟩)
    (fun _ _ kept => ⟨kept, fun current => current.congr rfl rfl rfl rfl fun _ _ => rfl⟩) coherent.together

/-- Every request leaves a coherent registry. -/
theorem Coherent.perform (coherent : registry.Coherent files) (operation : Operation) :
    (registry.perform files operation).Coherent files := by
  cases operation with
  | addPaths tier paths => exact coherent.addPaths tier paths
  | addArtifact artifact verdict => exact coherent.tryArtifact artifact verdict
  | setPlugins enabled => exact coherent.setPlugins enabled
  | setShared enabled => exact coherent.setShared enabled
  | fetch tier => exact coherent.fetch tier
  | find loader symbol =>
    obtain ⟨images, same⟩ := perform_find registry files loader symbol
    rw [same]
    exact coherent.of_images images
  | evaluate loader machine symbol code =>
    obtain ⟨images, same⟩ := perform_evaluate registry files loader machine symbol code
    rw [same]
    exact coherent.of_images images

theorem Coherent.performAll (coherent : registry.Coherent files) (operations : List Operation) :
    (registry.performAll files operations).Coherent files := by
  induction operations generalizing registry with
  | nil => exact coherent
  | cons operation rest ih => exact ih (coherent.perform operation)

end ScriptShell.Registry
