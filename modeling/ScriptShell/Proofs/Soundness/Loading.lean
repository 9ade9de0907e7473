import ScriptShell.Proofs.Soundness.Calls
import ScriptShell.Proofs.Typing.Growth
import ScriptShell.Registry.Linking
import Mathlib.Data.Option.Basic

/-! Loaded code keeps to signatures. What linking binds a symbol to goes by that symbol, so a registry
that holds code of modules holds code that calls what its signatures say, whatever is loaded, linked
and called in between. -/
namespace ScriptShell

/-- An artifact keeps to the signatures that its symbols are called with. -/
def Artifact.Fits (S : Symbols) (artifact : Artifact) : Prop :=
  ∀ entry ∈ artifact.procedures, ∀ signature : Signature, S.Calls entry.1 signature →
    entry.2.HasSignature S signature

/-- Foreign functions are declared with the signatures they have. -/
def Symbols.ForeignsMatch (S : Symbols) : Prop :=
  ∀ own ∈ S.foreigns, ∀ primitive : Primitive, primitive.symbol = own.1 → primitive.Accepts own.2

/-- So are the functions of libraries and of the process. -/
def FunctionTable.Match (S : Symbols) (libraries : List FunctionTable) : Prop :=
  ∀ library ∈ libraries, ∀ (symbol : String) (function : Foreign),
    library.lookup symbol = some function →
      ∀ signature : Signature, S.Calls symbol signature → Foreign.Fits function signature

theorem FunctionTable.match_of_isEmpty {libraries : List FunctionTable}
    (empty : libraries.all (·.isEmpty) = true) : FunctionTable.Match S libraries := by
  intro library listed symbol function found
  obtain rfl := List.isEmpty_iff.mp (List.all_eq_true.mp empty library listed)
  cases found

/-- A target goes by a symbol. -/
def Target.Provides (S : Symbols) (symbol : String) : Target → Prop
  | .procedure _ name => name = symbol
  | .primitive own => own.symbol = symbol
  | .foreign function => ∀ signature : Signature, S.Calls symbol signature → Foreign.Fits function signature

/-- What is loaded keeps to its signatures, and what it is linked to goes by the symbols it calls. -/
structure Image.Sound (S : Symbols) (image : Image) : Prop where
  artifact : image.artifact.Fits S
  bindings : ∀ (symbol : String) (target : Target), image.link.bindings.lookup symbol = some target →
    target.Provides S symbol

def Registry.Sound (S : Symbols) (registry : Registry) : Prop :=
  ∀ image ∈ registry.images, image.Sound S

namespace Primitive

theorem ofSymbol?_eq (primitive : Primitive) : ofSymbol? primitive.symbol = some primitive := by
  cases primitive <;> decide

theorem symbol_of_ofSymbol? {name : String} (found : ofSymbol? name = some primitive) :
    primitive.symbol = name := by
  simpa using List.find?_some found

/-- A symbol has one primitive function. -/
theorem symbol_injective {first second : Primitive} (same : first.symbol = second.symbol) :
    first = second := by
  have found := ofSymbol?_eq first
  rw [same, ofSymbol?_eq second, Option.some.injEq] at found
  exact found.symm

end Primitive

section

variable {S : Symbols} {registry : Registry} {libraries : List FunctionTable}

theorem Target.Provides.fits {images : Array Image} (sound : ∀ image ∈ images, image.Sound S)
    (coherent : S.Coherent) (foreigns : S.ForeignsMatch) {target : Target}
    (provides : target.Provides S symbol) (called : S.Calls symbol signature) :
    target.Fits S images signature := by
  cases target with
  | procedure index name =>
    obtain rfl : name = symbol := provides
    intro image loaded procedure found
    have present := (sound image (Array.mem_of_getElem? loaded)).artifact
    exact present _ (mem_of_lookup found) signature called
  | foreign function => exact provides signature called
  | primitive own =>
    obtain rfl : own.symbol = symbol := provides
    obtain called | called | ⟨other, same, accepts⟩ := called
    · exact absurd rfl (coherent.primitives _ called own own.mem_all)
    · exact foreigns _ called own rfl
    · exact Primitive.symbol_injective same ▸ accepts

/-- Code that is soundly loaded calls what keeps to its signatures. -/
theorem Image.AllFit.of_sound {images : Array Image} (sound : ∀ image ∈ images, image.Sound S)
    (coherent : S.Coherent) (foreigns : S.ForeignsMatch) : Image.AllFit S images := by
  intro index image loaded symbol target bound signature called
  have provides : target.Provides S symbol := by
    unfold Image.target? at bound
    split at bound
    · cases bound
      rfl
    · exact (sound image (Array.mem_of_getElem? loaded)).bindings symbol target bound
  exact provides.fits sound coherent foreigns called

namespace Registry

/-- What is found outside of artifacts is a function of a library, a primitive function, or a function of the
process. -/
theorem outerTarget?_cases (found : registry.outerTarget? libraries symbol = some target) :
    (∃ library ∈ registry.toolchain.host :: libraries, ∃ function : Foreign,
        library.lookup symbol = some function ∧ target = .foreign function) ∨
      ∃ primitive : Primitive, primitive.symbol = symbol ∧ target = .primitive primitive := by
  obtain own | ⟨-, outer⟩ := (Option.orElse_eq_some _ _ _).mp found
  · obtain ⟨function, listed, rfl⟩ := Option.map_eq_some_iff.mp own
    obtain ⟨library, present, own⟩ := List.exists_of_findSome?_eq_some listed
    exact .inl ⟨library, List.mem_cons_of_mem _ present, function, own, rfl⟩
  · obtain own | ⟨-, host⟩ := (Option.orElse_eq_some _ _ _).mp outer
    · obtain ⟨primitive, named, rfl⟩ := Option.map_eq_some_iff.mp own
      exact .inr ⟨primitive, Primitive.symbol_of_ofSymbol? named, rfl⟩
    · obtain ⟨function, own, rfl⟩ := Option.map_eq_some_iff.mp host
      exact .inl ⟨_, List.mem_cons_self, function, own, rfl⟩

theorem outerTarget?_provides (libs : FunctionTable.Match S (registry.toolchain.host :: libraries))
    (found : registry.outerTarget? libraries symbol = some target) : target.Provides S symbol := by
  obtain ⟨library, present, function, own, rfl⟩ | ⟨primitive, named, rfl⟩ := outerTarget?_cases found
  · exact libs library present symbol function own
  · exact named

theorem target?_provides (libs : FunctionTable.Match S (registry.toolchain.host :: libraries))
    (found : registry.target? seesArtifacts libraries symbol = some target) :
    target.Provides S symbol := by
  unfold Registry.target? at found
  obtain own | ⟨-, outer⟩ := (Option.orElse_eq_some _ _ _).mp found
  · split at own
    · unfold artifactTarget? at own
      obtain ⟨entry, -, rfl⟩ := Option.map_eq_some_iff.mp own
      rfl
    · cases own
  · exact outerTarget?_provides libs outer

theorem mem_of_mapM_option {f : α → Option β} {xs : List α} (run : xs.mapM f = some ys)
    (listed : y ∈ ys) : ∃ x ∈ xs, f x = some y := by
  induction xs generalizing ys with
  | nil =>
    simp only [List.mapM_nil, Option.pure_def, Option.some.injEq] at run
    subst run
    cases listed
  | cons x rest ih =>
    simp only [List.mapM_cons, Option.pure_def, Option.bind_eq_bind, Option.bind_eq_some_iff,
      Option.some.injEq] at run
    obtain ⟨first, one, others, more, rfl⟩ := run
    obtain rfl | listed := List.mem_cons.mp listed
    · exact ⟨x, List.mem_cons_self, one⟩
    · obtain ⟨x, present, made⟩ := ih more listed
      exact ⟨x, List.mem_cons_of_mem _ present, made⟩

theorem bindings?_eq_some : registry.bindings? seesArtifacts libraries artifact = some bindings ↔
    artifact.miscalls = false ∧ (artifact.imports.mapM fun symbol =>
      (registry.target? seesArtifacts libraries symbol).map (symbol, ·)) = some bindings := by
  unfold Registry.bindings?
  cases artifact.miscalls <;> simp

theorem bindings?_provide (libs : FunctionTable.Match S (registry.toolchain.host :: libraries))
    (bound : registry.bindings? seesArtifacts libraries artifact = some bindings)
    (found : bindings.lookup symbol = some target) : target.Provides S symbol := by
  obtain ⟨own, -, made⟩ := mem_of_mapM_option (bindings?_eq_some.mp bound).2 (mem_of_lookup found)
  obtain ⟨_, provided, same⟩ := Option.map_eq_some_iff.mp made
  cases same
  exact target?_provides libs provided

/-- Linking one piece of code. -/
theorem Sound.linkOne (sound : registry.Sound S)
    (libs : FunctionTable.Match S (registry.toolchain.host :: registry.links)) (index : Nat) :
    (registry.linkOne index).Sound S := by
  intro image listed
  obtain ⟨place, inside, rfl⟩ := Array.mem_iff_getElem.mp listed
  simp only [Registry.linkOne, Array.getElem_modify]
  have before := sound _ (Array.getElem_mem (by simpa [Registry.linkOne] using inside))
  split
  · refine ⟨before.artifact, fun symbol target found => ?_⟩
    dsimp only at found
    split at found
    · rename_i bindings bound
      exact bindings?_provide libs bound found
    · cases found
  · exact before

theorem Sound.linkReached (sound : registry.Sound S)
    (libs : FunctionTable.Match S (registry.toolchain.host :: registry.links)) (turns : Nat) (pending : List Nat) :
    (registry.linkReached turns pending).Sound S := by
  induction turns generalizing registry pending with
  | zero => exact sound
  | succ turns ih =>
    unfold Registry.linkReached
    split
    · exact sound
    · exact ih (sound.linkOne libs _) libs _

theorem Sound.spreadFailure (sound : registry.Sound S) (turns : Nat) :
    (registry.spreadFailure turns).Sound S := by
  induction turns generalizing registry with
  | zero => exact sound
  | succ turns ih =>
    unfold Registry.spreadFailure
    split
    · refine ih fun image listed => ?_
      obtain ⟨before, present, rfl⟩ := Array.mem_map.mp listed
      split
      · exact ⟨(sound before present).artifact, fun symbol target found => by cases found⟩
      · exact sound before present
    · exact sound

theorem Sound.linkAll (sound : registry.Sound S)
    (libs : FunctionTable.Match S (registry.toolchain.host :: registry.links)) (pending : List Nat) :
    (registry.linkAll pending).Sound S :=
  (sound.linkReached libs _ pending).spreadFailure _

theorem libraries_images (files : Files) (tiers : List Tier) :
    (registry.libraries files tiers).2.images = registry.images := by
  induction tiers generalizing registry with
  | nil => rfl
  | cons tier rest ih =>
    rw [Registry.libraries]
    refine ih.trans ?_
    unfold Registry.library
    split
    · rfl
    · cases tier <;> rfl

theorem currentLoader_images (files : Files) (tier : Tier) :
    (registry.currentLoader files tier).2.images = registry.images := by
  unfold Registry.currentLoader
  split
  · rfl
  · have built : (registry.buildLoader files tier).2.images = registry.images :=
      libraries_images files _
    dsimp only
    split
    · exact built
    · cases tier <;> exact built

theorem Sound.addArtifact (sound : registry.Sound S) (fits : artifact.Fits S) (files : Files) :
    (registry.addArtifact files artifact).Sound S := by
  intro image listed
  simp only [Registry.addArtifact, currentLoader_images, Array.mem_push] at listed
  obtain listed | rfl := listed
  · exact sound image listed
  · exact ⟨fits, fun symbol target found => by cases found⟩

end Registry

end

end ScriptShell
