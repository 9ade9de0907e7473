import ScriptShell.Proofs.Faults.Traces
import ScriptShell.Proofs.Running.Rest
import ScriptShell.Proofs.Registry.Generations

/-! Faults of fragments. A fault that ends the call of an entry point is the one that was raised, wrapped
once if modules were being initialised at that point, however many there were, and once for the call. So
what a fragment shows is one level: that of the fault that was raised, with the calls above the host. While
a module is being initialised, the entry point is among the active calls, since nothing but its code leads
there; so the trace that is cut at the entry point never gets to the host. -/
namespace ScriptShell

open Relation

/-- Functions that entry points may be have a frame of their own name. -/
def Artifact.NamesMains (artifact : Artifact) : Prop :=
  ∀ entry ∈ artifact.procedures, ∀ owner, entry.1 = owner ++ ".$main" →
    ∃ locals code, entry.2 = .function (some entry.1) locals code ∨ entry.2 = .method entry.1 locals code

namespace Lowering

end Lowering

namespace Registry

/-- All code that is loaded has a property. -/
def Has (P : Artifact → Prop) (registry : Registry) : Prop := ∀ image ∈ registry.images, P image.artifact

variable {registry after : Registry} {P : Artifact → Prop}

theorem Has.of_images (has : registry.Has P)
    (same : after.images.map (·.artifact) = registry.images.map (·.artifact)) : after.Has P := by
  intro image listed
  have present : image.artifact ∈ after.images.map (·.artifact) := Array.mem_map_of_mem listed
  rw [same] at present
  obtain ⟨old, kept, equal⟩ := Array.mem_map.mp present
  exact equal ▸ has old kept

theorem Has.of_same (has : registry.Has P) (same : registry.SameCode after) : after.Has P :=
  has.of_images same.images

theorem Has.addArtifact {files : Files} {artifact : Artifact} (has : registry.Has P) (own : P artifact) :
    (registry.addArtifact files artifact).Has P := by
  have fetched := has.of_same (sameCode_currentLoader registry files .runtime)
  intro image listed
  obtain old | rfl := Array.mem_push.mp listed
  · exact fetched image old
  · exact own

theorem Has.tryArtifact {files : Files} {artifact : Artifact} (has : registry.Has P) (own : P artifact)
    (verdict : LoadVerdict) : (registry.tryArtifact files artifact verdict).2.Has P := by
  obtain same | ⟨_, _, -, same⟩ := registry.tryArtifact_cases files artifact verdict <;> rw [same]
  · exact has.addArtifact own
  · exact has.of_images (sameCode_currentLoader registry files .runtime).images

end Registry

namespace Session

variable {session : Session}

theorem loadArtifacts_has {P : Artifact → Prop} (has : session.registry.Has P) {artifacts : List Artifact}
    (own : ∀ artifact ∈ artifacts, P artifact) (outside : Outside) :
    (session.loadArtifacts artifacts outside).2.registry.Has P := by
  induction artifacts generalizing session with
  | nil => exact has
  | cons artifact rest ih =>
    have first : (session.loadArtifact artifact outside).2.registry.Has P := by
      unfold loadArtifact
      split
      · exact has
      · exact has.tryArtifact (own artifact List.mem_cons_self) _
    rw [loadArtifacts]
    split
    all_goals
      rename_i loaded
      rw [loaded] at first
    · exact first
    · exact ih first fun other listed => own other (List.mem_cons_of_mem _ listed)

/-- What holds of the artifacts of every compiled unit holds of all code that a session has loaded. -/
theorem Reached.artifacts {P : Artifact → Prop} (units : ∀ {compiler after : Compiler} {source emission unit},
      compiler.compileWith source emission = (.ok unit, after) → ∀ artifact ∈ unit.artifacts, P artifact)
    (reached : session.Reached) : session.registry.Has P := by
  induction reached with
  | new config files =>
    have empty : (Session.new config files).registry.images = #[] := by
      show ((Registry.setShared { toolchain := config.toolchain } config.shared).2.setPlugins
        config.plugins).images = #[]
      rw [Registry.images_setPlugins, Registry.images_setShared]
    intro image listed
    simp [empty] at listed
  | @compile session before source emission spares ih =>
    exact ih.of_same (session.compiler.compile_sameCode source emission)
  | @load session source emission unit done before compiled spares unfinished outside ih =>
    have kept := session.compiler.compile_sameCode source emission
    rw [compiled] at kept
    exact @loadArtifacts_has { session with compiler := done, unfinished } _ (ih.of_same kept) _
      (units compiled) outside
  | @call session before name ih =>
    have found := (Registry.sameCode_currentLoader session.registry session.files .runtime).trans
      (Registry.sameCode_resolve _ (session.registry.currentLoader session.files .runtime).1 (name ++ "$Main"))
    have code := ih.of_same found
    unfold callWrapper
    dsimp only
    split
    · exact code
    · split <;> exact code
  | addPaths before tier paths _ ih => exact ih.of_images (congrArg _ (Registry.images_addPaths _ _ tier paths))
  | setShared before enabled ih => exact ih.of_images (congrArg _ (Registry.images_setShared _ enabled))
  | reset before ih => exact ih
  | other before table registry keeps ih =>
    obtain ⟨warnings, same⟩ := registry
    rw [same]
    exact ih

end Session

theorem frameMethod_main (owner : String) : frameMethod (owner ++ ".$main") = "$main" := by
  simp [frameMethod]

namespace Machine

variable {ready : Nat → Prop} {images : Array Image} {m raised : Machine} {root : Fault}
  {index fuel : Nat} {symbol frame : String} {args : List Value}

/-- A fault in a function with a frame leaves the frame in place, unless there was no place for it. -/
theorem openTarget_error (all : Image.AllReady ready images) (able : ready index)
    (opens : ∀ image procedure, images[index]? = some image → image.artifact.procedures.lookup symbol = some procedure →
      ∃ locals code, procedure = .function (some frame) locals code ∨ procedure = .method frame locals code)
    (ended : openTarget images (fuel + 2) (.procedure index symbol) args m = .error root raised) :
    (raised.context.traps = m.context.traps ∧ raised.context.frames = m.context.frames) ∨
      m.context.frames.toList ++ [some frame] <+: raised.context.frames.toList := by
  unfold openTarget at ended
  cases loaded : images[index]? with
  | none =>
    simp only [loaded] at ended
    cases ended
  | some image =>
    simp only [loaded] at ended
    cases found : image.artifact.procedures.lookup symbol with
    | none =>
      simp only [found] at ended
      cases ended
    | some procedure =>
      simp only [found] at ended
      have own := all index able image loaded
      have listed := mem_of_lookup found
      have calls : Congruence.Calls (fun _ x _ => Stacks x) (openCaller images image index (fuel + 1))
          (openCaller images image index (fuel + 1)) procedure.body.calls := by
        intro called member args
        unfold openCaller
        cases bound : image.target? index called with
        | none => exact stacks_tame (tame_pure _)
        | some target =>
          have plain := (own.orderly _ listed).calls called member
          exact stacks_openTarget all (own.targets called target plain bound).1 args
      have body : ∀ activation,
          Stacks (eval (openCaller images image index (fuel + 1)) activation procedure.body) :=
        fun activation => stacks_congruence.eval _ calls fun _ _ _ => stacks_modify fun _ => rfl
      have opens := opens image procedure loaded found
      have framed : procedure.isBare = false := by
        obtain ⟨locals, code, rfl | rfl⟩ := opens <;> rfl
      have entered : ∀ args, openCaller images image index (fuel + 1) Primitive.enter.symbol args =
        callPrimitive .enter args := openCaller_primitive (own.enter _ listed framed)
      have left : ∀ args, openCaller images image index (fuel + 1) Primitive.leave.symbol args =
        callPrimitive .leave args := openCaller_primitive (own.leave _ listed framed)
      obtain ⟨locals, code, rfl | rfl⟩ := opens
      · exact framed_error entered left (body _) ended
      · exact framed_error entered left (body _) ended

end Machine

/-- A call whose code is in order, of an entry point that is in use, on a machine at rest. -/
structure EntryCall.Poised (call : EntryCall) : Prop where
  orderly : call.registry.Orderly
  safe : call.entry.target.Safe call.registry.IsLinked
  inUse : call.registry.isRetired call.entry.generation = false
  named : ∃ owner, call.entry.target.Named (owner ++ ".$main")
  mains : call.registry.Has Artifact.NamesMains
  rest : call.machine.context.AtRest

/-- Where the run of an entry point raises a fault while a module is being initialised, the entry point is
right above the host. -/
theorem EntryCall.Poised.main_above_host {call : EntryCall} (poised : call.Poised) {root : Fault} {raised : Machine}
    (ended : Machine.openTarget call.registry.images Machine.callBound call.entry.target []
      call.machine.openGuard = .error root raised) (busy : raised.context.underway ≠ []) :
    ∃ frame, frameMethod frame = "$main" ∧ [some hostFrame, some frame] <+: raised.context.frames.toList := by
  have changed : raised.context.traps ≠ call.machine.openGuard.context.traps := by
    intro same
    exact busy ((congrArg (List.filterMap Trap.owner) same).trans poised.rest.underway_openGuard)
  have safe := poised.safe
  obtain ⟨owner, named⟩ := poised.named
  cases target : call.entry.target with
  | foreign function =>
    rw [target] at ended
    exact absurd ((Machine.tame_withWords [] function).error ended).1.traps changed
  | primitive own =>
    rw [target] at ended safe
    exact absurd ((Machine.tame_callPrimitive safe []).error ended).1.traps changed
  | procedure index symbol =>
    rw [target] at ended safe named
    obtain rfl : symbol = owner ++ ".$main" := named
    have opens : ∀ image procedure, call.registry.images[index]? = some image →
        image.artifact.procedures.lookup (owner ++ ".$main") = some procedure →
        ∃ locals code, procedure = .function (some (owner ++ ".$main")) locals code ∨
          procedure = .method (owner ++ ".$main") locals code :=
      fun image procedure loaded found =>
        poised.mains image (Array.mem_of_getElem? loaded) _ (mem_of_lookup found) owner rfl
    obtain ⟨same, -⟩ | above := Machine.openTarget_error poised.orderly.allReady safe opens ended
    · exact absurd same changed
    · refine ⟨_, frameMethod_main owner, ?_⟩
      simpa [Machine.openGuard, Context.push, Context.pushTrap, poised.rest.frames] using above

/-- How a fault that the call of an entry point hands out comes about. Without the catching, the run stops
where `root` is raised, in the state `raised`; `root` has no cause. The fault wraps it for the call, and before
that once if a module was being initialised there. -/
structure EntryCall.Faulted (call : EntryCall) (fault root : Fault) (raised : Machine) : Prop where
  run : Machine.openTarget call.registry.images Machine.callBound call.entry.target [] call.machine.openGuard =
    .error root raised
  kind : root.top.kind ∈ FaultKind.raised
  causes : root.causes = []
  frames : root.top.frames = raised.context.snapshot
  bare : raised.context.underway = [] → fault = root.wrap ⟨.invocation, "", []⟩
  wrapped : raised.context.underway ≠ [] → ∃ frames,
    fault = (root.wrap ⟨.initializer, "", frames⟩).wrap ⟨.invocation, "", []⟩

/-- What is shown of a fault that was raised: the end, an interruption, or one level, which begins with its
kind and message and lists some of the calls above the host. -/
structure Fault.Shown (root : Fault) (outcome : Outcome String) : Prop where
  exit : outcome = .exit ↔ root.top.kind = .exit
  interrupted : outcome = .fail "Interrupted!" ↔ root.top.kind = .interrupted
  failure : root.top.kind ≠ .exit → root.top.kind ≠ .interrupted → ∃ marker calls,
    outcome = .failure ⟨root.top.render marker, some marker⟩ ∧
      root.top.headline.toList <+: (root.top.render marker).toList ∧
      root.top.frames = calls ++ [hostFrame] ∧ root.top.userFrames marker <+: calls

theorem EntryCall.Poised.faulted {call : EntryCall} (poised : call.Poised) {fault : Fault}
    (ended : (call.registry.invoke call.entry (some call.machine)).1.fault = some fault) :
    ∃ root raised, call.Faulted fault root raised := by
  have balanced : Machine.Balanced
      (Machine.callTarget call.registry.images Machine.callBound call.entry.target []) :=
    Machine.balanced_callTarget poised.orderly.allReady poised.safe []
  have handed := (Machine.guarded_restores balanced call.machine).2.2
  unfold Registry.invoke at ended
  rw [poised.inUse] at ended
  simp only [Bool.false_eq_true, if_false, Machine.callEntry] at ended
  cases answer : call.machine.guarded
      (Machine.callTarget call.registry.images Machine.callBound call.entry.target []) with
  | mk result after =>
    rw [answer] at ended handed
    cases result with
    | ok value => simp at ended
    | error shown =>
      simp only [Option.some.injEq] at ended
      obtain ⟨-, stopped, run⟩ := handed
      have tracks := Machine.tracks_callTarget call.registry.images Machine.callBound call.entry.target []
      cases opened : Machine.openTarget call.registry.images Machine.callBound call.entry.target []
          call.machine.openGuard with
      | ok value m =>
        rw [(tracks.ok opened).1] at run
        cases run
      | error root raised =>
        obtain ⟨own, begun, fault', left, underway, same, -, trapped⟩ := tracks.error opened
        rw [same] at run
        cases run
        rw [poised.rest.underway_openGuard, List.append_nil] at underway
        refine ⟨root, raised, opened, own.kind, own.causes, own.frames, fun none => ?_, fun busy => ?_⟩
        · rw [← ended, trapped.bare (underway ▸ none)]
        · obtain ⟨frames, wrapped⟩ := trapped.wrapped (underway ▸ busy)
          exact ⟨frames, by rw [← ended, wrapped]⟩

namespace Fault

variable {root : Fault}

/-- The outcome of a fault that was raised, with a trace that is cut at a marker. -/
def outcome (root : Fault) (marker : String) : Outcome String :=
  match root.top.kind with
  | .exit => .exit
  | .interrupted => .fail "Interrupted!"
  | _ => .failure ⟨root.top.render marker, some marker⟩

theorem classify_bare (causes : root.causes = []) (kind : root.top.kind ∈ FaultKind.raised) :
    (root.wrap ⟨.invocation, "", []⟩).classify = root.outcome (frameMethod hostFrame) := by
  obtain ⟨⟨kind', message, frames⟩, levels⟩ := root
  obtain rfl : levels = [] := causes
  simp only [FaultKind.raised, List.mem_cons, List.not_mem_nil, or_false] at kind
  obtain rfl | rfl | rfl | rfl | rfl := kind <;> rfl

theorem classify_wrapped (causes : root.causes = []) (kind : root.top.kind ∈ FaultKind.raised)
    (frames : List String) :
    ((root.wrap ⟨.initializer, "", frames⟩).wrap ⟨.invocation, "", []⟩).classify = root.outcome "$main" := by
  obtain ⟨⟨kind', message, own⟩, levels⟩ := root
  obtain rfl : levels = [] := causes
  simp only [FaultKind.raised, List.mem_cons, List.not_mem_nil, or_false] at kind
  obtain rfl | rfl | rfl | rfl | rfl := kind <;> rfl

theorem shown_outcome {calls : List String} {marker : String} (frames : root.top.frames = calls ++ [hostFrame])
    (listed : root.top.userFrames marker <+: calls) : root.Shown (root.outcome marker) := by
  constructor
  case exit =>
    unfold outcome
    split <;> simp_all [Outcome.fail]
  case interrupted =>
    unfold outcome
    split <;> simp_all [Outcome.fail]
  case failure =>
    intro exits interrupted
    refine ⟨marker, calls, ?_, ?_, frames, listed⟩
    · unfold outcome
      split
      · contradiction
      · contradiction
      · rfl
    · simp only [FaultLevel.render_eq, String.toList_append, List.append_assoc]
      exact List.prefix_append _ _

end Fault

/-- A list that is cut where a condition fails ends in front of any such place. -/
theorem takeWhile_stops {p : α → Bool} {first rest : List α} {stop : α} (fails : p stop = false) :
    (first ++ stop :: rest).takeWhile p <+: first := by
  rw [List.takeWhile_append]
  split
  · simp [fails]
  · exact ⟨first.dropWhile p, List.takeWhile_append_dropWhile⟩

/-- The frames at a point, innermost first. -/
theorem Context.snapshot_of_prefix {context : Context} {frames : List String}
    (under : frames.map some <+: context.frames.toList) : ∃ calls, context.snapshot = calls ++ frames.reverse := by
  obtain ⟨rest, same⟩ := under
  refine ⟨(rest.map (·.getD "<unknown>")).reverse, ?_⟩
  unfold Context.snapshot
  rw [← same, List.map_append, List.reverse_append, List.map_map]
  simp

theorem EntryCall.Poised.shown {call : EntryCall} (poised : call.Poised) {fault root : Fault} {raised : Machine}
    (faulted : call.Faulted fault root raised) : root.Shown fault.classify := by
  by_cases idle : raised.context.underway = []
  case neg =>
    obtain ⟨frames, rfl⟩ := faulted.wrapped idle
    obtain ⟨frame, main, under⟩ := poised.main_above_host faulted.run idle
    have under : [hostFrame, frame].map some <+: raised.context.frames.toList := under
    obtain ⟨calls, snapshot⟩ := Context.snapshot_of_prefix under
    have own : root.top.frames = calls ++ [frame, hostFrame] := faulted.frames.trans snapshot
    rw [Fault.classify_wrapped faulted.causes faulted.kind]
    refine Fault.shown_outcome (show root.top.frames = (calls ++ [frame]) ++ [hostFrame] by simpa using own) ?_
    unfold FaultLevel.userFrames
    rw [own]
    exact (takeWhile_stops (by simp [main])).trans (List.prefix_append _ _)
  case pos =>
    have kept := (Machine.stacks_openTarget poised.orderly.allReady poised.safe []).error faulted.run
    have under : [hostFrame].map some <+: raised.context.frames.toList := by
      simpa [Machine.openGuard, Context.push, Context.pushTrap, poised.rest.frames] using kept
    obtain ⟨calls, snapshot⟩ := Context.snapshot_of_prefix under
    have own : root.top.frames = calls ++ [hostFrame] := faulted.frames.trans snapshot
    rw [faulted.bare idle, Fault.classify_bare faulted.causes faulted.kind]
    refine Fault.shown_outcome own ?_
    unfold FaultLevel.userFrames
    rw [own]
    exact takeWhile_stops (by simp)

namespace Session

variable {session : Session} {call : EntryCall}

end Session

end ScriptShell
