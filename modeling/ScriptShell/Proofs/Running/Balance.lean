import ScriptShell.Proofs.Running.Frames
import ScriptShell.Proofs.Running.Sealed

/-! Frames and traps. A call of code that is ready closes every frame that it opens and removes every trap
that it sets, unless a fault carries it off; the guard around an entry point then goes back to where it was
opened, past all initialisations that were under way. At no point of this are there more frames than are
allowed. -/
namespace ScriptShell

namespace Context

/-- Frames, traps and the fault on its way are as they were. -/
structure Kept (before after : Context) : Prop where
  frames : after.frames = before.frames
  traps : after.traps = before.traps
  pending : after.pending = before.pending

/-- A fault is on its way to the traps that there were before, and the frames of that time are still there. -/
structure Stopped (before after : Context) (fault : Fault) : Prop where
  frames : before.frames.toList <+: after.frames.toList
  traps : after.traps = before.traps
  pending : after.pending = some fault

theorem Kept.refl (context : Context) : Kept context context := ⟨rfl, rfl, rfl⟩

theorem Kept.trans {first second third : Context} (one : Kept first second)
    (two : Kept second third) : Kept first third :=
  ⟨two.frames.trans one.frames, two.traps.trans one.traps, two.pending.trans one.pending⟩

theorem Kept.stopped {first second third : Context} {fault : Fault} (one : Kept first second)
    (two : Stopped second third fault) : Stopped first third fault :=
  ⟨one.frames ▸ two.frames, two.traps.trans one.traps, two.pending⟩

/-- Going back to a trap that was set where fewer frames were: those frames remain. -/
theorem unwind_of_prefix {context base : Context} {owner : Option CellKey} {outer : List Trap}
    (traps : context.traps = ⟨base.depth, owner⟩ :: outer) (under : base.frames.toList <+: context.frames.toList) :
    context.unwind = { context with traps := outer, frames := base.frames } := by
  have fewer : base.frames.size ≤ context.frames.size := by simpa using under.length_le
  have same : context.frames.take base.frames.size ++
      Array.replicate (base.frames.size - context.frames.size) none = base.frames := by
    rw [Nat.sub_eq_zero_of_le fewer]
    apply Array.toList_inj.mp
    simpa using (List.prefix_iff_eq_take.mp under).symm
  unfold unwind
  rw [traps]
  simp only [depth, same]

theorem wrapPending_frames (context : Context) : context.wrapPending.frames = context.frames := by
  unfold wrapPending
  split
  · rfl
  · split <;> rfl

/-- The context has no more frames than are allowed, and neither has a place that a trap leads back to. -/
structure Within (context : Context) : Prop where
  frames : context.depth ≤ maxDepth
  traps : ∀ trap ∈ context.traps, trap.depth ≤ maxDepth

theorem Within.of_same {before after : Context} (within : before.Within)
    (frames : after.frames = before.frames) (traps : after.traps = before.traps) : after.Within :=
  ⟨by rw [depth, frames]; exact within.frames, by rw [traps]; exact within.traps⟩

theorem Within.pushTrap {context : Context} (within : context.Within) (owner : Option CellKey) :
    (context.pushTrap owner).Within :=
  ⟨within.frames, List.forall_mem_cons.mpr ⟨within.frames, within.traps⟩⟩

theorem Within.popTrap {context : Context} (within : context.Within) : context.popTrap.Within :=
  ⟨within.frames, fun trap listed => within.traps trap (List.mem_of_mem_tail listed)⟩

theorem Within.pop {context : Context} (within : context.Within) : context.pop.Within := by
  refine ⟨?_, within.traps⟩
  have fewer := within.frames
  simp only [depth, Context.pop, Array.size_pop] at fewer ⊢
  omega

/-- Going back to a trap leads to as many frames as there were when it was set. -/
theorem Within.unwind {context : Context} (within : context.Within) : context.unwind.Within := by
  unfold Context.unwind
  split
  · exact within
  · rename_i marked outer traps
    have known := within.traps
    rw [traps, List.forall_mem_cons] at known
    refine ⟨?_, known.2⟩
    simp only [depth, Array.size_append, Array.take_eq_extract, Array.size_extract, Array.size_replicate]
    omega

/-- There is no frame, no trap and no fault on its way. -/
structure AtRest (context : Context) : Prop where
  frames : context.frames = #[]
  traps : context.traps = []
  pending : context.pending = none

theorem AtRest.of_kept {before after : Context} (rest : before.AtRest) (kept : Kept before after) :
    after.AtRest :=
  ⟨kept.frames.trans rest.frames, kept.traps.trans rest.traps, kept.pending.trans rest.pending⟩

/-- A guard that is opened at rest adds the first frame. -/
theorem AtRest.openGuard {m : Machine} (rest : m.context.AtRest) : m.openGuard.context.Within := by
  have alone : (m.context.push (some hostFrame)).Within := by
    refine ⟨?_, fun depth listed => ?_⟩
    · simp [depth, push, rest.frames, maxDepth]
    · rw [show (m.context.push (some hostFrame)).traps = [] from rest.traps] at listed
      cases listed
  exact alone.pushTrap none

/-- No module is being initialised behind a guard that is opened at rest. -/
theorem AtRest.underway_openGuard {m : Machine} (rest : m.context.AtRest) : m.openGuard.context.underway = [] := by
  show List.filterMap Trap.owner (⟨_, none⟩ :: m.context.traps) = []
  rw [rest.traps]
  rfl

end Context

namespace Machine

/-- A run that keeps frames, traps and the fault on its way. If it ends in a fault, that is the one on its
way. -/
structure Balanced (x : Run α) : Prop where
  ok : ∀ {m value m'}, x m = .ok value m' → Context.Kept m.context m'.context
  error : ∀ {m fault m'}, x m = .error fault m' → Context.Stopped m.context m'.context fault

variable {x y : Run α} {m : Machine} {call other : Caller}

theorem balanced_tame (tame : Tame x) : Balanced x where
  ok ended := ⟨(tame.ok ended).frames, (tame.ok ended).traps, (tame.ok ended).pending⟩
  error ended :=
    ⟨(tame.error ended).1.frames ▸ List.prefix_rfl, (tame.error ended).1.traps, (tame.error ended).2.pending⟩

theorem balanced_modify {f : Machine → Machine} (frames : ∀ m, (f m).context.frames = m.context.frames)
    (traps : ∀ m, (f m).context.traps = m.context.traps) (pending : ∀ m, (f m).context.pending = m.context.pending) :
    Balanced (modify f : Run Unit) :=
  ⟨by rintro m _ _ ⟨⟩; exact ⟨frames m, traps m, pending m⟩, by rintro _ _ _ ⟨⟩⟩

theorem Balanced.bind {f : α → Run β} (first : Balanced x) (rest : ∀ value, Balanced (f value)) :
    Balanced (x >>= f) := by
  constructor
  case ok =>
    intro m value m' ended
    rw [run_bind] at ended
    cases result : x m with
    | error fault after => simp [result] at ended
    | ok own after =>
      simp only [result] at ended
      exact (first.ok result).trans ((rest own).ok ended)
  case error =>
    intro m fault m' ended
    rw [run_bind] at ended
    cases result : x m with
    | error own after =>
      simp only [result] at ended
      cases ended
      exact first.error result
    | ok own after =>
      simp only [result] at ended
      exact (first.ok result).stopped ((rest own).error ended)

theorem balanced_congruence : Congruence fun _ x _ => Balanced x := ⟨balanced_tame, Balanced.bind⟩

theorem balanced_writeCell (key : CellKey) (value : Value) : Balanced (writeCell key value) :=
  ⟨by rintro m _ _ ⟨⟩; exact .refl m.context, by rintro _ _ _ ⟨⟩⟩

/-- An initialisation removes its trap, whether its body comes to its end or not. -/
theorem balanced_initialise {body : Run Value} (key : CellKey) (run : Balanced body) :
    Balanced (initialise key body) := by
  constructor
  case ok =>
    intro m value m' ended
    rw [run_initialise] at ended
    split at ended
    · cases result : body (m.entered key) with
      | error fault after => simp [result] at ended
      | ok own after =>
        simp only [result] at ended
        cases ended
        have kept := run.ok result
        exact ⟨kept.frames, congrArg List.tail kept.traps, kept.pending⟩
    · cases ended
      exact .refl m.context
  case error =>
    intro m fault m' ended
    rw [run_initialise] at ended
    split at ended
    · cases result : body (m.entered key) with
      | ok own after => simp [result] at ended
      | error root after =>
        simp only [result] at ended
        cases ended
        have stopped := run.error result
        have unwound := @Context.unwind_of_prefix after.context m.context _ _ stopped.traps stopped.frames
        constructor
        case frames =>
          have same : after.context.unwind.wrapPending.frames = m.context.frames := by
            rw [Context.wrapPending_frames, unwound]
          exact (congrArg Array.toList same).symm ▸ List.prefix_rfl
        case traps =>
          show after.context.unwind.wrapPending.traps = _
          rw [Context.wrapPending_traps, unwound]
        case pending => rw [Context.caught, trap_pending stopped.pending key, Option.getD_some]
    · cases ended

/-- A frame that is opened for a body is closed behind it. -/
theorem balanced_framed {body : Run Value} {frame : String}
    (entered : ∀ args, call Primitive.enter.symbol args = callPrimitive .enter args)
    (left : ∀ args, call Primitive.leave.symbol args = callPrimitive .leave args)
    (run : Balanced body) : Balanced (framed call frame body) := by
  have opens : ∀ {m : Machine}, (∃ fault m', enter (some frame) m = .error fault m' ∧
        Context.Stopped m.context m'.context fault) ∨
      enter (some frame) m = .ok () { m with context := m.context.push frame } := by
    intro m
    rw [run_enter]
    split
    · exact .inl ⟨_, _, rfl, List.prefix_rfl, rfl, rfl⟩
    · split
      · exact .inl ⟨_, _, rfl, List.prefix_rfl, rfl, rfl⟩
      · exact .inr rfl
  constructor
  case ok =>
    intro m value m' ended
    rw [run_framed frame m entered left] at ended
    obtain ⟨fault, halted, stopped, -⟩ | opened := @opens m
    · simp [stopped] at ended
    · rw [opened] at ended
      dsimp only at ended
      split at ended
      · cases ended
      · rename_i result
        cases ended
        have kept := run.ok result
        exact ⟨by simp [Context.pop, kept.frames, Context.push], kept.traps, kept.pending⟩
  case error =>
    intro m fault m' ended
    rw [run_framed frame m entered left] at ended
    obtain ⟨own, halted, result, stopped⟩ | opened := @opens m
    · rw [result] at ended
      cases ended
      exact stopped
    · rw [opened] at ended
      dsimp only at ended
      split at ended
      · rename_i result
        cases ended
        have stopped := run.error result
        refine ⟨List.IsPrefix.trans ?_ stopped.frames, stopped.traps, stopped.pending⟩
        simp [Context.push]
      · cases ended

theorem balanced_outOfRoom : Balanced (outOfRoom : Run α) := by
  have marked : Balanced (goAstray .stack) := balanced_modify (fun _ => rfl) (fun _ => rfl) fun _ => rfl
  exact marked.bind fun _ => balanced_tame (tame_raise (by decide) _)

variable {ready : Nat → Prop} {images : Array Image} {image : Image} {index fuel : Nat}

/-- Frames around the code of a procedure that is ready. -/
theorem balanced_framed_caller {procedure : Procedure} {frame : String} {body : Run Value}
    (able : image.Ready ready index) (listed : (symbol, procedure) ∈ image.artifact.procedures)
    (own : procedure.isBare = false) (run : Balanced body) :
    Balanced (framed (image.caller images index fuel) frame body) := by
  cases fuel with
  | zero =>
    have stopped : ∀ symbol args, Balanced (image.caller images index 0 symbol args) := by
      intro symbol args
      unfold Image.caller
      split
      · exact balanced_outOfRoom
      · exact balanced_tame (tame_pure _)
    exact (stopped _ _).bind fun _ => run.bind fun _ => (stopped _ _).bind fun _ => balanced_tame (tame_pure _)
  | succ fuel =>
    exact balanced_framed (caller_primitive (able.enter _ listed own) (Nat.le_add_left 1 fuel))
      (caller_primitive (able.leave _ listed own) (Nat.le_add_left 1 fuel)) run

/-- A call of what may be called is balanced. The induction is on the number of calls that may stand inside
one another. -/
theorem balanced_callTarget {target : Target} (all : Image.AllReady ready images) (safe : target.Safe ready)
    (args : List Value) : Balanced (callTarget images fuel target args) := by
  induction fuel generalizing target args with
  | zero => exact balanced_outOfRoom
  | succ fuel ih =>
    unfold callTarget
    cases target with
    | primitive own => exact balanced_tame (tame_callPrimitive safe args)
    | foreign function => exact balanced_tame (tame_withWords args function)
    | procedure self symbol =>
      dsimp only
      cases loaded : images[self]? with
      | none => exact balanced_tame (tame_pure _)
      | some image =>
        dsimp only
        cases found : image.artifact.procedures.lookup symbol with
        | none => exact balanced_tame (tame_pure _)
        | some procedure =>
          have able := all self safe image loaded
          have listed := mem_of_lookup found
          have calls : Congruence.Calls (fun _ x _ => Balanced x) (image.caller images self fuel)
              (image.caller images self fuel) (Primitive.alloc.symbol :: procedure.body.calls) := by
            intro called member args
            have plain : called ∉ frameSymbols := by
              obtain rfl | member := List.mem_cons.mp member
              · decide
              · exact (able.orderly _ listed).calls called member
            unfold Image.caller
            cases bound : image.target? self called with
            | none => exact balanced_tame (tame_pure _)
            | some target => exact ih (able.targets called target plain bound).1 args
          dsimp only
          rw [callProcedure_eq]
          refine balanced_congruence.procedureWith initialise initialise _ self args ?_ ?_ calls ?_
          · exact fun own frame body _ run => balanced_framed_caller able listed own run
          · exact fun key _ _ run => balanced_initialise key run
          · exact fun _ _ _ => balanced_writeCell _ _

/-- A guard goes back to the frames and traps that there were when it was opened. It leaves no fault behind
that was not there before, and hands out the fault of the run. -/
theorem guarded_restores (run : Balanced x) (m : Machine) :
    (m.guarded x).2.context.frames = m.context.frames ∧ (m.guarded x).2.context.traps = m.context.traps ∧
      match (m.guarded x).1 with
      | .ok value => (m.guarded x).2.context.pending = m.context.pending ∧ ∃ after, x m.openGuard = .ok value after
      | .error fault => (m.guarded x).2.context.pending = none ∧ ∃ after, x m.openGuard = .error fault after := by
  rw [run_guarded]
  cases result : x m.openGuard with
  | ok value after =>
    have kept := run.ok result
    refine ⟨?_, congrArg List.tail kept.traps, kept.pending, after, rfl⟩
    show after.context.frames.pop = _
    simp [kept.frames, openGuard, Context.push, Context.pushTrap]
  | error fault after =>
    have stopped := run.error result
    have unwound := @Context.unwind_of_prefix after.context (m.context.push (some hostFrame)) _ _
      stopped.traps stopped.frames
    dsimp only
    refine ⟨?_, ?_, rfl, after, ?_⟩
    · show after.context.unwind.frames.pop = _
      rw [unwound]
      simp [Context.push]
    · show after.context.unwind.traps = _
      rw [unwound]
      rfl
    · rw [Context.caught, stopped.pending, Option.getD_some]

/-- From where there are no more frames than are allowed, two runs do the same, and lead to such places. -/
def Bounded (x y : Run α) : Prop :=
  ∀ m : Machine, m.context.Within → x m = y m ∧ (left (x m)).context.Within

theorem Bounded.bind {f g : α → Run β} (first : Bounded x y) (rest : ∀ value, Bounded (f value) (g value)) :
    Bounded (x >>= f) (y >>= g) := by
  intro m within
  obtain ⟨same, between⟩ := first m within
  rw [run_bind, run_bind, ← same]
  cases result : x m with
  | error fault after =>
    rw [result] at between
    exact ⟨rfl, between⟩
  | ok value after =>
    rw [result] at between
    exact rest value after between

/-- What a function does to frames, traps and the fault on its way, where `watched` is the function with the
machine changed wherever a call begins or ends. A call that gives a value leaves them as they were. A guard
goes back to the frames and traps that there were, and leaves no fault behind that was not there before. And
there never are more frames than are allowed: a change that only machines with more of them would notice is
noticed nowhere, inside a guard that is opened at rest no more than elsewhere. -/
structure Tidy (function : Run Value) (watched : (Machine → Machine) → Run Value) : Prop where
  returns : ∀ {m value m'}, function m = .ok value m' → Context.Kept m.context m'.context
  frames : ∀ m : Machine, (m.guarded function).2.context.frames = m.context.frames
  traps : ∀ m : Machine, (m.guarded function).2.context.traps = m.context.traps
  value : ∀ {m : Machine} {value after}, m.guarded function = (.ok value, after) →
    after.context.pending = m.context.pending
  fault : ∀ {m : Machine} {fault after}, m.guarded function = (.error fault, after) → after.context.pending = none
  limit : ∀ disturb : Machine → Machine, (∀ m : Machine, m.context.depth ≤ Context.maxDepth → disturb m = m) →
    ∀ m : Machine, m.context.Within → function m = watched disturb m
  guardedLimit : ∀ disturb : Machine → Machine,
    (∀ m : Machine, m.context.depth ≤ Context.maxDepth → disturb m = m) →
    ∀ m : Machine, m.context.AtRest → m.guarded function = m.guarded (watched disturb)

end Machine

end ScriptShell
