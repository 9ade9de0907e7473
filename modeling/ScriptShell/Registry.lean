import ScriptShell.Classpath
import ScriptShell.Machine.Evaluation

/-!
The registry of loaded code. It keeps class path roots in three tiers and the artifacts compiled
so far, and hands out loaders, which say what code can see. A loader is built when it is asked
for and kept until its tier changes. Programs and the compiler have loaders of their own unless
the registry is in shared mode; switching the mode after one of them was built starts a new
generation, in which all artifacts are gone and all earlier loaders are retired.
-/
namespace ScriptShell

/-- Whose code a class path is for: programs, code that the compiler runs, or extensions of the
compiler. -/
inductive Tier where
  | runtime | compiler | plugin
deriving Repr, DecidableEq, Inhabited

/-- The name of a tier. -/
def Tier.name : Tier → String
  | .runtime => "runtime"
  | .compiler => "compiler"
  | .plugin => "plugin"

/-- What code can see: artifacts or not, then libraries, then what every program can call. -/
structure Loader where
  /-- Loaders built at different times differ in their number. -/
  serial : Nat
  generation : Nat
  tier : Tier
  coalesced : Bool
  seesArtifacts : Bool
  libraries : List FunctionTable

/-- A tier: its roots, the loader built last, and the library of its roots. The last two are
missing when they have to be built again. -/
structure TierState where
  roots : List String := []
  loader : Option Loader := none
  library : Option FunctionTable := none

/-- The state of a registry. -/
structure Registry where
  /-- What code is loaded with. -/
  toolchain : Toolchain := {}
  runtime : TierState := {}
  compiler : TierState := {}
  plugin : TierState := {}
  /-- All code loaded so far, by number. -/
  images : Array Image := #[]
  /-- The present artifacts with the number of their code, by increasing name. -/
  artifacts : List (String × Nat) := []
  /-- The code that the present generation holds for them, by the names they were loaded under. -/
  loaded : List (String × Nat) := []
  /-- The libraries that artifacts are linked against. -/
  links : List FunctionTable := []
  generation : Nat := 1
  /-- A loader of the present generation was built. -/
  begun : Bool := false
  /-- The generations that are over, the last one first. -/
  ended : List Nat := []
  nextSerial : Nat := 0
  shared : Bool := false
  plugins : Bool := true
  /-- Warnings not handed out yet. -/
  warnings : String := ""
  /-- The paths accepted so far, by tier. -/
  announced : List (Tier × List String) := []

namespace Registry

/-- The state of a tier. -/
def tier (registry : Registry) : Tier → TierState
  | .runtime => registry.runtime
  | .compiler => registry.compiler
  | .plugin => registry.plugin

/-- Changes a tier. -/
def modifyTier (registry : Registry) (tier : Tier) (f : TierState → TierState) : Registry :=
  match tier with
  | .runtime => { registry with runtime := f registry.runtime }
  | .compiler => { registry with compiler := f registry.compiler }
  | .plugin => { registry with plugin := f registry.plugin }

/-- Drops the loader of a tier. In shared mode programs and the compiler have one together. -/
def invalidate (registry : Registry) (tier : Tier) : Registry :=
  let drop (state : TierState) : TierState := { state with loader := none }
  if registry.shared && tier ≠ .plugin then
    (registry.modifyTier .runtime drop).modifyTier .compiler drop
  else registry.modifyTier tier drop

/-- Adds the paths that exist to a tier, and gives them back. -/
def addPaths (registry : Registry) (files : Files) (tier : Tier) (paths : List String) :
    List String × Registry :=
  let accepted := paths.filter files.exists?
  if accepted.isEmpty then ([], registry)
  else
    let registry := registry.modifyTier tier fun state =>
      { state with roots := state.roots ++ accepted, library := none }
    let registry := registry.invalidate tier
    let registry := if tier = .plugin then registry.invalidate .compiler else registry
    (accepted, { registry with announced := registry.announced ++ [(tier, accepted)] })

/-- Sets whether the compiler sees the roots of plugins. -/
def setPlugins (registry : Registry) (enabled : Bool) : Registry :=
  if registry.plugins = enabled then registry
  else { registry with plugins := enabled }.invalidate .compiler

/-- Starts a new generation. One that never began has no loaders to retire. -/
def retire (registry : Registry) : Registry :=
  let clear (state : TierState) : TierState := { roots := state.roots }
  { registry with
    runtime := clear registry.runtime
    compiler := clear registry.compiler
    plugin := clear registry.plugin
    artifacts := []
    loaded := []
    links := []
    generation := registry.generation + 1
    begun := false
    ended := if registry.begun then registry.generation :: registry.ended else registry.ended }

/-- Sets the mode. The flag tells that a loader in use was replaced. -/
def setShared (registry : Registry) (enabled : Bool) : Bool × Registry :=
  if registry.shared = enabled then (false, registry)
  else
    let registry := { registry with shared := enabled }
    if registry.runtime.loader.isSome || registry.compiler.loader.isSome then
      (true, registry.retire)
    else (false, registry)

/-- The library of a tier, built if it has to be. Files left out are reported then. -/
def library (registry : Registry) (files : Files) (tier : Tier) : FunctionTable × Registry :=
  match (registry.tier tier).library with
  | some functions => (functions, registry)
  | none =>
    let built := Classpath.build registry.toolchain files (registry.tier tier).roots
    let registry := registry.modifyTier tier ({ · with library := some built.functions })
    (built.functions, { registry with
      warnings := registry.warnings ++ joinWith "" (built.refused.map Classpath.warning) })

/-- The libraries of several tiers, built in their order. -/
def libraries (registry : Registry) (files : Files) : List Tier → List FunctionTable × Registry
  | [] => ([], registry)
  | tier :: rest =>
    let (first, registry) := registry.library files tier
    let (others, registry) := registry.libraries files rest
    (first :: others, registry)

/-- The tiers whose roots a loader sees. -/
def visibleTiers (registry : Registry) (tier : Tier) : List Tier :=
  let plugins := if registry.plugins then [Tier.plugin] else []
  match tier with
  | .plugin => [.plugin]
  | .runtime => if registry.shared then [.runtime, .compiler] ++ plugins else [.runtime]
  | .compiler =>
    if registry.shared then [.runtime, .compiler] ++ plugins else .compiler :: plugins

/-- Builds a loader. One that sees artifacts also says what they are linked against. -/
def buildLoader (registry : Registry) (files : Files) (tier : Tier) : Loader × Registry :=
  let coalesced := registry.shared && tier ≠ .plugin
  let seesArtifacts := coalesced || tier = .runtime
  let (libraries, registry) := registry.libraries files (registry.visibleTiers tier)
  let loader : Loader :=
    { serial := registry.nextSerial, generation := registry.generation, tier, coalesced,
      seesArtifacts, libraries }
  (loader, { registry with
    nextSerial := registry.nextSerial + 1
    begun := true
    links := if seesArtifacts then libraries else registry.links })

/-- A loader of an earlier generation is retired. -/
def isRetired (registry : Registry) (generation : Nat) : Bool := registry.ended.contains generation

/-- The present loader of a tier. -/
def currentLoader (registry : Registry) (files : Files) (tier : Tier) : Loader × Registry :=
  match (registry.tier tier).loader.filter (!registry.isRetired ·.generation) with
  | some loader => (loader, registry)
  | none =>
    let (loader, registry) := registry.buildLoader files tier
    let keep (state : TierState) : TierState := { state with loader := some loader }
    if loader.coalesced then
      (loader, (registry.modifyTier .runtime keep).modifyTier .compiler keep)
    else (loader, registry.modifyTier tier keep)

/-- Adds an artifact, in place of the present one of its name. The loader for programs is built
first, so that the artifact can be linked. -/
def addArtifact (registry : Registry) (files : Files) (artifact : Artifact) : Registry :=
  let (_, registry) := registry.currentLoader files .runtime
  { registry with
    images := registry.images.push { artifact }
    artifacts := bindName artifact.name registry.images.size registry.artifacts
    loaded := bindName artifact.name registry.images.size registry.loaded }

/-- What the loading of code comes to. -/
inductive LoadVerdict where
  | taken
  /-- The present code of that name could not be removed. -/
  | stuck
  /-- The code could not be read, or was turned down. -/
  | refused
deriving Repr, DecidableEq

/-- Adds an artifact as far as its code can be loaded. The present one of its name is gone as soon as its
code was removed. The flag tells that the artifact was added. -/
def tryArtifact (registry : Registry) (files : Files) (artifact : Artifact) (verdict : LoadVerdict) :
    Bool × Registry :=
  match verdict with
  | .taken => (true, registry.addArtifact files artifact)
  | .stuck => (false, (registry.currentLoader files .runtime).2)
  | .refused =>
    let (_, registry) := registry.currentLoader files .runtime
    if (registry.loaded.lookup artifact.name).isSome then
      (false, { registry with
        artifacts := registry.artifacts.filter (·.1 ≠ artifact.name)
        loaded := registry.loaded.filter (·.1 ≠ artifact.name) })
    else (false, registry)

/-- The names of the present artifacts. -/
def artifactNames (registry : Registry) : List String := registry.artifacts.map (·.1)

/-- An artifact of the given name is present. -/
def hasArtifact (registry : Registry) (name : String) : Bool :=
  (registry.artifacts.lookup name).isSome

/-- Hands out the warnings. -/
def takeWarnings (registry : Registry) : String × Registry :=
  (registry.warnings, { registry with warnings := "" })

end Registry

end ScriptShell
