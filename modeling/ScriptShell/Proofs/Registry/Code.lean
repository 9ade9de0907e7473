import ScriptShell.Proofs.Soundness.Loading

/-! Loaded code stays as it is. Fetching a loader, linking and looking symbols up change how far code is
linked and which libraries are built, but neither the code that is loaded nor the names it is loaded
under. -/
namespace ScriptShell.Registry

/-- The same code under the same names. -/
structure SameCode (before after : Registry) : Prop where
  artifacts : after.artifacts = before.artifacts
  images : after.images.map (·.artifact) = before.images.map (·.artifact)

variable {before between after : Registry}

theorem SameCode.refl (registry : Registry) : registry.SameCode registry := ⟨rfl, rfl⟩

theorem SameCode.trans (first : before.SameCode between) (second : between.SameCode after) :
    before.SameCode after :=
  ⟨second.artifacts.trans first.artifacts, second.images.trans first.images⟩

theorem sameCode_library (registry : Registry) (files : Files) (tier : Tier) :
    registry.SameCode (registry.library files tier).2 := by
  unfold Registry.library
  split
  · exact .refl registry
  · cases tier <;> exact ⟨rfl, rfl⟩

theorem sameCode_libraries (registry : Registry) (files : Files) (tiers : List Tier) :
    registry.SameCode (registry.libraries files tiers).2 := by
  induction tiers generalizing registry with
  | nil => exact .refl registry
  | cons tier rest ih =>
    rw [Registry.libraries]
    exact (sameCode_library registry files tier).trans (ih _)

theorem sameCode_currentLoader (registry : Registry) (files : Files) (tier : Tier) :
    registry.SameCode (registry.currentLoader files tier).2 := by
  unfold Registry.currentLoader
  split
  · exact .refl registry
  · have built := sameCode_libraries registry files (registry.visibleTiers tier)
    dsimp only
    split
    · exact ⟨built.artifacts, built.images⟩
    · cases tier <;> exact ⟨built.artifacts, built.images⟩

/-- An artifact is added, or the present one of its name may be gone. -/
theorem tryArtifact_cases (registry : Registry) (files : Files) (artifact : Artifact) (verdict : LoadVerdict) :
    registry.tryArtifact files artifact verdict = (true, registry.addArtifact files artifact) ∨
      ∃ artifacts loaded, artifacts ⊆ (registry.currentLoader files .runtime).2.artifacts ∧
        registry.tryArtifact files artifact verdict =
          (false, { (registry.currentLoader files .runtime).2 with artifacts, loaded }) := by
  cases verdict with
  | taken => exact .inl rfl
  | stuck => exact .inr ⟨_, _, List.Subset.refl _, rfl⟩
  | refused =>
    unfold tryArtifact
    dsimp only
    split
    · exact .inr ⟨_, _, List.filter_sublist.subset, rfl⟩
    · exact .inr ⟨_, _, List.Subset.refl _, rfl⟩

theorem sameCode_linkOne (registry : Registry) (index : Nat) : registry.SameCode (registry.linkOne index) := by
  refine ⟨rfl, Array.ext_getElem? fun i => ?_⟩
  simp only [linkOne, Array.getElem?_map, Array.getElem?_modify]
  split
  · cases registry.images[i]? <;> rfl
  · rfl

theorem sameCode_linkReached (registry : Registry) (turns : Nat) (pending : List Nat) :
    registry.SameCode (registry.linkReached turns pending) := by
  induction turns generalizing registry pending with
  | zero => exact .refl registry
  | succ turns ih =>
    unfold linkReached
    split
    · exact .refl registry
    · exact (sameCode_linkOne registry _).trans (ih _ _)

theorem sameCode_spreadFailure (registry : Registry) (turns : Nat) :
    registry.SameCode (registry.spreadFailure turns) := by
  induction turns generalizing registry with
  | zero => exact .refl registry
  | succ turns ih =>
    unfold spreadFailure
    split
    · refine SameCode.trans ?_ (ih _)
      refine ⟨rfl, ?_⟩
      rw [Array.map_map]
      congr 1
      funext image
      simp only [Function.comp]
      split <;> rfl
    · exact .refl registry

theorem sameCode_linkAll (registry : Registry) (pending : List Nat) : registry.SameCode (registry.linkAll pending) :=
  (sameCode_linkReached registry _ pending).trans (sameCode_spreadFailure _ _)

theorem sameCode_lookup (registry : Registry) (loader : Loader) (symbol : String) :
    registry.SameCode (registry.lookup loader symbol).2 := by
  unfold Registry.lookup
  split
  · exact .refl registry
  · split
    · exact .refl registry
    · dsimp only
      split <;> exact sameCode_linkAll registry _

theorem sameCode_isVisible (registry : Registry) (loader : Loader) (symbol : String) :
    registry.SameCode (registry.isVisible loader symbol).2 := by
  have looked := sameCode_lookup registry loader symbol
  unfold isVisible
  split <;> (rename_i found; rwa [found] at looked)

theorem sameCode_resolve (registry : Registry) (loader : Loader) (name : String) :
    registry.SameCode (registry.resolve loader name).2 := by
  have looked := sameCode_lookup registry loader (name ++ ".$main")
  unfold resolve
  split <;> (rename_i found; rwa [found] at looked)

theorem sameCode_evaluate (registry : Registry) (loader : Loader) (machine : Machine) (symbol : String) (code : Code) :
    registry.SameCode (registry.evaluate loader machine symbol code).2.2 := by
  unfold Registry.evaluate
  dsimp only
  split
  · exact .refl registry
  · split
    · exact .refl registry
    · split
      · exact sameCode_linkAll registry _
      · split <;> exact sameCode_linkAll registry _

theorem images_setShared (registry : Registry) (enabled : Bool) :
    (registry.setShared enabled).2.images = registry.images := by
  unfold setShared
  split
  · rfl
  · dsimp only
    split <;> rfl

theorem images_addPaths (registry : Registry) (files : Files) (tier : Tier) (paths : List String) :
    (registry.addPaths files tier paths).2.images = registry.images := by
  unfold addPaths invalidate
  dsimp only
  repeat' split
  all_goals cases tier <;> rfl

theorem images_setPlugins (registry : Registry) (enabled : Bool) :
    (registry.setPlugins enabled).images = registry.images := by
  unfold setPlugins invalidate
  repeat' split
  all_goals rfl

end ScriptShell.Registry
