import ScriptShell.Proofs.Registry.Operations

/-! Generations of loaders. A loader belongs to the generation it was built in. A switch of the mode begins a
new one, and then the loader answers nothing any more; but it does so only if a loader is kept at that time,
and new roots may have dropped it. -/
namespace ScriptShell.Registry

variable {registry : Registry} {files : Files} {tier : Tier} {loader : Loader}

/-- What a request does to the generations. -/
inductive Ages (before after : Registry) : Prop
  | stays (generation : after.generation = before.generation) (ended : after.ended = before.ended)
    (begun : before.begun = true → after.begun = true)
  | renews (generation : after.generation = before.generation + 1)
    (ended : after.ended = if before.begun then before.generation :: before.ended else before.ended)

theorem Same.ages {after : Registry} (same : registry.Same after) (begun : after.begun = true) :
    registry.Ages after :=
  .stays same.generation same.ended fun _ => begun

theorem SameAge.ages {after : Registry} (age : registry.SameAge after) : registry.Ages after :=
  .stays age.generation age.ended (by rw [age.begun]; exact id)

theorem ages_perform (coherent : registry.Coherent files) (operation : Operation) :
    registry.Ages (registry.perform files operation) := by
  cases operation with
  | addPaths tier paths => exact (sameAge_addPaths registry tier paths).1.ages
  | addArtifact artifact verdict =>
    obtain ⟨same, -, begun⟩ := currentLoader_spec coherent .runtime
    cases verdict with
    | stuck => exact same.ages begun
    | taken => exact .stays same.generation same.ended fun _ => begun
    | refused =>
      unfold perform tryArtifact
      dsimp only
      split
      · exact .stays same.generation same.ended fun _ => begun
      · exact same.ages begun
  | setPlugins enabled =>
    show registry.Ages (registry.setPlugins enabled)
    rw [setPlugins_eq]
    split <;> exact .stays rfl rfl id
  | setShared enabled =>
    show registry.Ages (registry.setShared enabled).2
    obtain ⟨-, same⟩ | ⟨-, -, -, same⟩ | ⟨-, -, same⟩ := setShared_cases registry enabled <;> rw [same]
    · exact .stays rfl rfl id
    · exact .stays rfl rfl id
    · exact .renews rfl rfl
  | fetch tier =>
    obtain ⟨same, -, begun⟩ := currentLoader_spec coherent tier
    exact same.ages begun
  | find loader symbol =>
    obtain ⟨images, same⟩ := perform_find registry files loader symbol
    rw [same]
    exact .stays rfl rfl id
  | evaluate loader machine symbol code =>
    obtain ⟨images, same⟩ := perform_evaluate registry files loader machine symbol code
    rw [same]
    exact .stays rfl rfl id

/-- A generation that loaders were built in is the present one, or it is over. -/
structure Known (registry : Registry) (generation : Nat) : Prop where
  reached : generation ≤ registry.generation
  begun : generation = registry.generation → registry.begun = true
  ended : generation < registry.generation → generation ∈ registry.ended

theorem Known.step {after : Registry} {generation : Nat} (known : registry.Known generation)
    (ages : registry.Ages after) : after.Known generation := by
  cases ages with
  | stays same ended begun =>
    refine ⟨same ▸ known.reached, fun now => begun (known.begun (now.trans same)), fun earlier => ?_⟩
    rw [ended]
    exact known.ended (same ▸ earlier)
  | renews same ended =>
    refine ⟨by have := known.reached; omega, fun now => by have := known.reached; omega, fun earlier => ?_⟩
    rw [ended]
    obtain present | before := Nat.eq_or_lt_of_le known.reached
    · simp [known.begun present, present]
    · have listed := known.ended before
      split
      · exact List.mem_cons_of_mem _ listed
      · exact listed

theorem Known.performAll {generation : Nat} (known : registry.Known generation) (coherent : registry.Coherent files)
    (operations : List Operation) : (registry.performAll files operations).Known generation := by
  induction operations generalizing registry with
  | nil => exact known
  | cons operation rest ih =>
    exact ih (known.step (ages_perform coherent operation)) (coherent.perform operation)

theorem known_currentLoader (coherent : registry.Coherent files) (tier : Tier) :
    (registry.currentLoader files tier).2.Known (registry.currentLoader files tier).1.generation := by
  obtain ⟨same, current, begun⟩ := currentLoader_spec coherent tier
  have now := current.generation.trans same.generation.symm
  exact ⟨Nat.le_of_eq now, fun _ => begun, fun earlier => absurd now (Nat.ne_of_lt earlier)⟩

/-- Such a generation is over exactly if it is an earlier one. -/
theorem Known.isRetired_iff {generation : Nat} (known : registry.Known generation)
    (coherent : registry.Coherent files) :
    registry.isRetired generation = true ↔ generation < registry.generation := by
  unfold isRetired
  rw [List.contains_iff_mem]
  exact ⟨coherent.ended generation, known.ended⟩

/-- A loader answers nothing any more, and the entry points that were found through it do not run. -/
structure Refuses (registry : Registry) (loader : Loader) : Prop where
  isVisible : ∀ symbol, registry.isVisible loader symbol = (false, registry)
  resolve : ∀ name, registry.resolve loader name =
    (.error (LinkError.retired loader.tier loader.generation).message, registry)
  evaluate : ∀ machine symbol code, registry.evaluate loader machine symbol code =
    (.error (LinkError.retired loader.tier loader.generation).message, machine, registry)
  invoke : ∀ (earlier : Registry) (name : String) (entry : Entry), (earlier.resolve loader name).1 = .ok entry →
    ∀ machine, registry.invoke entry machine = ({ fault := some ⟨⟨.runtimeError,
      name ++ " belongs to retired loader generation " ++ toString loader.generation, []⟩, []⟩ }, machine)

theorem resolve_ok {name : String} {entry : Entry} (found : (registry.resolve loader name).1 = .ok entry) :
    entry.generation = loader.generation ∧ entry.name = name := by
  unfold Registry.resolve at found
  split at found
  · cases found
    exact ⟨rfl, rfl⟩
  · cases found
  · cases found

theorem refuses_of_isRetired (retired : registry.isRetired loader.generation = true) : registry.Refuses loader := by
  have missed : ∀ symbol, registry.lookup loader symbol =
      (.error (.retired loader.tier loader.generation), registry) := by
    intro symbol
    rw [Registry.lookup, if_pos retired]
  constructor
  case isVisible => exact fun symbol => by rw [Registry.isVisible, missed]
  case resolve => exact fun name => by rw [Registry.resolve, missed]
  case evaluate => exact fun machine symbol code => by rw [Registry.evaluate, if_pos retired]
  case invoke =>
    intro earlier name entry found machine
    obtain ⟨generation, rfl⟩ := resolve_ok found
    unfold Registry.invoke
    rw [generation, if_pos retired]

/-- What is kept goes together: the two maps of artifacts, and the loaders of programs and the compiler. -/
structure Paired (registry : Registry) : Prop where
  names : registry.loaded.map (·.1) = registry.artifacts.map (·.1)
  empty : registry.begun = false → registry.loaded = [] ∧ registry.artifacts = []
  shared : registry.shared = true → (registry.runtime.loader = none ∧ registry.compiler.loader = none) ∨
    ∃ loader, registry.runtime.loader = some loader ∧ registry.compiler.loader = some loader ∧
      loader.coalesced = true
  split : registry.shared = false → ∀ tier loader, (registry.tier tier).loader = some loader →
    loader.coalesced = false

theorem Coherent.paired (coherent : registry.Coherent files) : registry.Paired where
  names := by rw [coherent.loaded]
  empty idle := ⟨coherent.loaded.trans (coherent.empty idle), coherent.empty idle⟩
  shared mode := by
    have together := coherent.together mode
    cases kept : registry.runtime.loader with
    | none => exact .inl ⟨rfl, together.symm.trans kept⟩
    | some loader =>
      refine .inr ⟨loader, rfl, together.symm.trans kept, ?_⟩
      simp [(coherent.loader .runtime loader kept).coalesced, mode]
  split mode tier loader kept := by simp [(coherent.loader tier loader kept).coalesced, mode]

/-- A loader is of the present generation when it is handed out. It is retired as soon as the generation is
over, from then on, and only then; and whatever was asked, what is kept goes together. -/
theorem loaders_of_generations (toolchain : Toolchain) (files : Files) (earlier later : List Operation) (tier : Tier) :
    let registry := ({ toolchain } : Registry).performAll files earlier
    let fetched := registry.currentLoader files tier
    let after := fetched.2.performAll files later
    registry.Paired ∧
      (fetched.2.isRetired fetched.1.generation = false ∧ fetched.1.generation = fetched.2.generation) ∧
      fetched.2.generation ≤ after.generation ∧
      (after.isRetired fetched.1.generation = true ↔ fetched.1.generation < after.generation) ∧
      (fetched.1.generation < after.generation → after.Refuses fetched.1) := by
  intro registry fetched after
  have coherent : registry.Coherent files := (coherent_empty toolchain).performAll earlier
  have handed : fetched.2.Coherent files := coherent.fetch tier
  obtain ⟨same, current, -⟩ := currentLoader_spec coherent tier
  have current : fetched.2.Current files tier fetched.1 := same.current current
  have known : after.Known fetched.1.generation := (known_currentLoader coherent tier).performAll handed later
  have retired := known.isRetired_iff (handed.performAll later)
  refine ⟨coherent.paired, ⟨handed.present current, current.generation⟩, ?_, retired, fun ended => ?_⟩
  · exact current.generation ▸ known.reached
  · exact refuses_of_isRetired (retired.mpr ended)

/-- A loader that a switch of the mode has retired. -/
theorem loaders_of_generations_switched :
    let fetched := ({} : Registry).currentLoader {} .compiler
    let after := fetched.2.performAll {} [.setShared true, .fetch .runtime]
    after.Refuses fetched.1 := by
  intro fetched after
  have all := loaders_of_generations {} {} [] [.setShared true, .fetch .runtime] .compiler
  exact all.2.2.2.2 (by decide +kernel)

/-- A request drops the loader of a tier. -/
def Operation.drops (files : Files) (registry : Registry) (tier : Tier) : Operation → Bool
  | .addPaths added paths => !(paths.filter files.exists?).isEmpty && registry.unseats added tier
  | .setPlugins enabled => registry.plugins ≠ enabled && registry.shares .compiler tier
  | _ => false

/-- None of several requests drops the loader of a tier. -/
def Undropped (files : Files) (tier : Tier) : Registry → List Operation → Prop
  | _, [] => True
  | registry, operation :: rest =>
    operation.drops files registry tier = false ∧ Undropped files tier (registry.perform files operation) rest

/-- A loader that no request drops is kept, as long as its generation lasts. -/
theorem isSome_loader_perform (coherent : registry.Coherent files) (operation : Operation) (user : tier ≠ .plugin)
    (kept : (registry.tier tier).loader.isSome = true) (undropped : operation.drops files registry tier = false) :
    ((registry.perform files operation).tier tier).loader.isSome = true ∨
      registry.generation < (registry.perform files operation).generation := by
  have fetch : ∀ other, ((registry.currentLoader files other).2.tier tier).loader.isSome = true := by
    intro other
    obtain ⟨loader, -, same⟩ | ⟨loader, after, same, fetched⟩ := currentLoader_cases coherent other
    · rw [same]
      exact kept
    · rw [same, fetched.loaders]
      split
      · rfl
      · exact kept
  cases operation with
  | addPaths added paths =>
    left
    show ((registry.addPaths files added paths).2.tier tier).loader.isSome = true
    cases some : (paths.filter files.exists?).isEmpty with
    | true =>
      rw [addPaths_eq, if_pos some]
      exact kept
    | false =>
      have stays : registry.unseats added tier = false := by simpa [Operation.drops, some] using undropped
      rw [tier_addPaths some]
      simpa [stays] using kept
  | addArtifact artifact verdict =>
    left
    cases verdict with
    | stuck => exact fetch .runtime
    | taken => exact fetch .runtime
    | refused =>
      unfold perform tryArtifact
      dsimp only
      split <;> exact fetch .runtime
  | setPlugins enabled =>
    left
    show ((registry.setPlugins enabled).tier tier).loader.isSome = true
    rw [setPlugins_eq]
    split
    · exact kept
    · rename_i differs
      have stays : registry.shares .compiler tier = false := by simpa [Operation.drops, differs] using undropped
      rw [seat, tier_withTiers]
      simp only [show ({ registry with plugins := enabled } : Registry).shares .compiler tier = false from stays]
      exact kept
  | setShared enabled =>
    show ((registry.setShared enabled).2.tier tier).loader.isSome = true ∨
      registry.generation < (registry.setShared enabled).2.generation
    obtain ⟨-, same⟩ | ⟨-, first, second, -⟩ | ⟨-, -, same⟩ := setShared_cases registry enabled
    · rw [same]
      exact .inl kept
    · cases tier with
      | runtime => exact absurd kept (by simp [Registry.tier, first])
      | compiler => exact absurd kept (by simp [Registry.tier, second])
      | plugin => exact absurd rfl user
    · rw [same]
      exact .inr (Nat.lt_succ_self _)
  | fetch other => exact .inl (fetch other)
  | find loader symbol =>
    obtain ⟨images, same⟩ := perform_find registry files loader symbol
    rw [same]
    exact .inl kept
  | evaluate loader machine symbol code =>
    obtain ⟨images, same⟩ := perform_evaluate registry files loader machine symbol code
    rw [same]
    exact .inl kept

theorem Ages.le {after : Registry} (ages : registry.Ages after) : registry.generation ≤ after.generation := by
  cases ages with
  | stays same => exact Nat.le_of_eq same.symm
  | renews same => omega

theorem generation_performAll (coherent : registry.Coherent files) (operations : List Operation) :
    registry.generation ≤ (registry.performAll files operations).generation := by
  induction operations generalizing registry with
  | nil => exact Nat.le_refl _
  | cons operation rest ih =>
    exact Nat.le_trans (ages_perform coherent operation).le (ih (coherent.perform operation))

theorem isSome_loader_performAll (coherent : registry.Coherent files) (operations : List Operation)
    (user : tier ≠ .plugin) (kept : (registry.tier tier).loader.isSome = true)
    (undropped : Undropped files tier registry operations) :
    ((registry.performAll files operations).tier tier).loader.isSome = true ∨
      registry.generation < (registry.performAll files operations).generation := by
  induction operations generalizing registry with
  | nil => exact .inl kept
  | cons operation rest ih =>
    obtain ⟨first, others⟩ := undropped
    have following := coherent.perform operation
    have older := (ages_perform coherent operation).le
    obtain kept | renewed := isSome_loader_perform coherent operation user kept first
    · exact (ih following kept others).imp id fun renewed => Nat.lt_of_le_of_lt older renewed
    · exact .inr (Nat.lt_of_lt_of_le renewed (generation_performAll following rest))

/-- A loader for programs or for the compiler is kept when it is handed out. -/
theorem isSome_loader_currentLoader (coherent : registry.Coherent files) (tier : Tier) :
    ((registry.currentLoader files tier).2.tier tier).loader.isSome = true := by
  obtain ⟨loader, kept, same⟩ | ⟨loader, after, same, fetched⟩ := currentLoader_cases coherent tier
  · rw [same, kept]
    rfl
  · rw [same, fetched.loaders, shares]
    simp

/-- A switch of the mode while a loader for programs or for the compiler is kept. -/
theorem setShared_retires {generation : Nat} (known : registry.Known generation)
    (present : generation = registry.generation) (user : tier ≠ .plugin)
    (kept : (registry.tier tier).loader.isSome = true) (differs : registry.shared ≠ enabled) :
    (registry.setShared enabled).1 = true ∧ (registry.setShared enabled).2.artifacts = [] ∧
      (registry.setShared enabled).2.isRetired generation = true := by
  obtain ⟨mode, -⟩ | ⟨-, first, second, -⟩ | ⟨-, -, switched⟩ := setShared_cases registry enabled
  · exact absurd mode differs
  · cases tier with
    | runtime => exact absurd kept (by simp [Registry.tier, first])
    | compiler => exact absurd kept (by simp [Registry.tier, second])
    | plugin => exact absurd rfl user
  · rw [switched]
    refine ⟨rfl, rfl, ?_⟩
    simp [isRetired, Registry.retire, known.begun present, present]

/-- A switch of the mode retires all loaders of the present generation and drops the artifacts, if a loader
for programs or for the compiler was handed out since the last request that dropped one like it. -/
theorem switch_retires_loaders (toolchain : Toolchain) (files : Files) (earlier between later : List Operation)
    (tier last : Tier) (enabled : Bool) :
    let fetched := (({ toolchain } : Registry).performAll files earlier).currentLoader files tier
    let refetched := (fetched.2.performAll files between).currentLoader files last
    let before := refetched.2.performAll files later
    last ≠ .plugin → Undropped files last refetched.2 later → fetched.1.generation = before.generation →
      before.shared ≠ enabled →
      (before.setShared enabled).1 = true ∧ (before.setShared enabled).2.artifacts = [] ∧
        (before.setShared enabled).2.isRetired fetched.1.generation = true := by
  intro fetched refetched before user undropped present differs
  have first : Coherent _ files := (coherent_empty toolchain).performAll earlier
  have second : (fetched.2.performAll files between).Coherent files := (first.fetch tier).performAll between
  have third : refetched.2.Coherent files := second.fetch last
  have known : refetched.2.Known fetched.1.generation :=
    ((known_currentLoader first tier).performAll (first.fetch tier) between).step (ages_perform second (.fetch last))
  have kept := isSome_loader_performAll third later user (isSome_loader_currentLoader second last) undropped
  have kept : (before.tier last).loader.isSome = true := by
    refine kept.resolve_right fun renewed => ?_
    have reached := known.reached
    have passed : refetched.2.generation < before.generation := renewed
    omega
  exact setShared_retires (known.performAll third later) present user kept differs

/-- A loader for programs, dropped by new roots and built again before the mode is switched. -/
theorem switch_retires_loaders_refetched :
    let files := Files.ofList [("lib/a.ll", "define i64 @f() \x7b\nret i64 1\n\x7d\n")]
    let fetched := ({} : Registry).currentLoader files .runtime
    let refetched := (fetched.2.performAll files [.addPaths .runtime ["lib"]]).currentLoader files .compiler
    let before := refetched.2.performAll files [.addPaths .runtime ["lib"], .fetch .plugin]
    Undropped files .compiler refetched.2 [.addPaths .runtime ["lib"], .fetch .plugin] ∧
      fetched.1.generation = before.generation ∧ before.shared ≠ true ∧
      (before.setShared true).2.isRetired fetched.1.generation = true := by
  intro files fetched refetched before
  have undropped : Undropped files .compiler refetched.2 [.addPaths .runtime ["lib"], .fetch .plugin] :=
    ⟨by decide +kernel, by decide +kernel, trivial⟩
  have present : fetched.1.generation = before.generation := by decide +kernel
  have differs : before.shared ≠ true := by decide +kernel
  have switched := switch_retires_loaders {} files [] [.addPaths .runtime ["lib"]]
    [.addPaths .runtime ["lib"], .fetch .plugin] .runtime .compiler true (by decide) undropped present differs
  exact ⟨undropped, present, differs, switched.2.2⟩

/-- A loader for programs that new roots dropped: a switch of the mode leaves it, and the artifacts. -/
theorem switch_misses_dropped_loader :
    let files := Files.ofList [("lib/a.ll", "define i64 @f() \x7b\nret i64 1\n\x7d\n")]
    let fetched := ({} : Registry).currentLoader files .runtime
    let before := fetched.2.performAll files
      [.addArtifact (Artifact.entry "A" (.text 1 "x")) .taken, .addPaths .runtime ["lib"]]
    fetched.1.generation = before.generation ∧ before.shared ≠ true ∧ (before.setShared true).1 = false ∧
      (before.setShared true).2.artifactNames = ["A"] ∧
      (before.setShared true).2.isRetired fetched.1.generation = false := by
  decide +kernel

end ScriptShell.Registry
