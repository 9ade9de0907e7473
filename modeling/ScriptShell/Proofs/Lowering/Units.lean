import ScriptShell.Proofs.Lowering.Success

/-! The code of a unit. Every procedure comes from one member of a container or from the container
itself; a well-typed unit has code if each object that it asks for without naming it is asked for in
the code of its class. -/
namespace ScriptShell

/-- The class of the object that the code of a container has at hand. -/
def Symbols.ownClass? (S : Symbols) (id : ContainerId) : Option ContainerId :=
  if (S.get id).isClass then some id else none

theorem TypedMember.FitsAll.mem {S : Symbols} {id : ContainerId} {members : List TypedMember}
    (fits : TypedMember.FitsAll base S id members) (listed : member ∈ members) : member.Fits base S id := by
  induction members with
  | nil => cases listed
  | cons first rest ih =>
    obtain rfl | listed := List.mem_cons.mp listed
    · exact fits.1
    · exact ih fits.2 listed

theorem TypedMember.mem_bodiesAll {id : ContainerId} {members : List TypedMember}
    (listed : member ∈ members) (present : body ∈ member.bodies id) :
    body ∈ TypedMember.bodiesAll id members := by
  induction members with
  | nil => cases listed
  | cons first rest ih =>
    obtain rfl | listed := List.mem_cons.mp listed
    · exact List.mem_append_left _ present
    · exact List.mem_append_right _ (ih listed)

namespace Lowering

variable {S : Symbols} {base : Nat} {id : ContainerId} {members : List TypedMember}

/-- Where the code of a member stands. -/
def bodyPlace (S : Symbols) (id : ContainerId) (locals : List LocalId) : Place :=
  { symbols := S, hasSelf := (S.get id).isClass, locals }

theorem bodyPlace_stands (covers : ∀ one ∈ Scope.ids scope, one ∈ locals) :
    (bodyPlace S id locals).Stands S (S.ownClass? id) scope where
  symbols := rfl
  self := by
    unfold bodyPlace Symbols.ownClass?
    cases (S.get id).isClass <;> rfl
  locals := covers

theorem bodyPlace_module (isModule : (S.get id).isClass = false) :
    bodyPlace S id [] = { symbols := S } := by
  simp [bodyPlace, isModule]

theorem bodyPlace_class (isClass : (S.get id).isClass = true) :
    bodyPlace S id [] = { symbols := S, hasSelf := true } := by
  simp [bodyPlace, isClass]

/-- How an entry of the code of a container comes about. -/
inductive Entry (S : Symbols) (id : ContainerId) (members : List TypedMember) :
    String × Procedure → Prop where
  | ensure (isModule : (S.get id).isClass = false) (lowered : moduleSteps S members = .ok steps) :
      Entry S id members (ensureSymbol (S.get id).qualified,
        .ensure (S.get id).qualified (initSymbol (S.get id).qualified) (.block steps))
  | initialise (isModule : (S.get id).isClass = false) (listed : .func decl key locals body ∈ members)
      (shadows : ((S.member? key).getD default).symbol = initSymbol (S.get id).qualified)
      (lowered : moduleSteps S members = .ok steps) :
      Entry S id members (initSymbol (S.get id).qualified,
        .function (some (initSymbol (S.get id).qualified)) [] (.block [.run (.block steps), .run (.word 0)]))
  | construct (isClass : (S.get id).isClass = true) (lowered : classSteps S members = .ok steps) :
      Entry S id members (constructSymbol (S.get id).qualified,
        .construct (constructSymbol (S.get id).qualified) (S.get id).name (S.get id).slotCount
          (argumentSlots (S.get id)) (.block steps))
  | strict (isModule : (S.get id).isClass = false) (listed : .val decl key init ∈ members)
      (mode : decl.mode = .strict) :
      Entry S id members (getter ((S.member? key).getD default).symbol,
        strictAccessor (S.get id).qualified ((S.member? key).getD default).symbol)
  | lazy (isModule : (S.get id).isClass = false) (listed : .val decl key init ∈ members)
      (mode : decl.mode = .lazy) (lowered : lowerExpr (bodyPlace S id []) init = .ok code) :
      Entry S id members (getter ((S.member? key).getD default).symbol,
        lazyAccessor (S.get id).qualified ((S.member? key).getD default).symbol code)
  | lazySlot (isClass : (S.get id).isClass = true) (listed : .val decl key init ∈ members)
      (mode : decl.mode = .lazy) (lowered : lowerExpr (bodyPlace S id []) init = .ok code) :
      Entry S id members (getter ((S.member? key).getD default).symbol,
        lazyMethod ((S.member? key).getD default).symbol
          (((S.member? key).getD default).slot.getD 0)
          (((S.member? key).getD default).flagSlot.getD 0) code)
  | func (isModule : (S.get id).isClass = false) (listed : .func decl key locals body ∈ members)
      (lowered : lowerExpr (bodyPlace S id locals) body = .ok code) :
      Entry S id members (((S.member? key).getD default).symbol,
        .function (some ((S.member? key).getD default).symbol) locals code)
  | method (isClass : (S.get id).isClass = true) (listed : .func decl key locals body ∈ members)
      (lowered : lowerExpr (bodyPlace S id locals) body = .ok code) :
      Entry S id members (((S.member? key).getD default).symbol,
        .method ((S.member? key).getD default).symbol locals code)

/-- The container whose code an entry is stands in the tree of the container that was lowered. -/
structure Within (base : Nat) (S : Symbols) (bodies : List (ContainerId × TypedExpr))
    (id : ContainerId) (members : List TypedMember) : Prop where
  new : base ≤ id
  inside : id < S.containers.size
  fits : TypedMember.FitsAll base S id members
  bodies : ∀ body ∈ TypedMember.bodiesAll id members, body ∈ bodies

theorem leadProcedure_entry (run : leadProcedure S (S.get id) members = .ok entry) :
    Entry S id members entry := by
  unfold leadProcedure at run
  cases isClass : (S.get id).isClass with
  | true =>
    simp only [isClass, if_true, Except.bind_ok, Except.pure_ok] at run
    obtain ⟨steps, lowered, rfl⟩ := run
    exact .construct isClass lowered
  | false =>
    simp only [isClass, Bool.false_eq_true, if_false, Except.bind_ok, Except.pure_ok] at run
    obtain ⟨steps, lowered, rfl⟩ := run
    exact .ensure isClass lowered

theorem ownInitialiser_entry (run : leadProcedure S (S.get id) members = .ok lead) :
    ∀ entry ∈ ownInitialiser S members lead.2, Entry S id members entry := by
  intro entry made
  unfold leadProcedure at run
  cases isClass : (S.get id).isClass with
  | true =>
    simp only [isClass, if_true, Except.bind_ok, Except.pure_ok] at run
    obtain ⟨steps, -, rfl⟩ := run
    cases made
  | false =>
    simp only [isClass, Bool.false_eq_true, if_false, Except.bind_ok, Except.pure_ok] at run
    obtain ⟨steps, lowered, rfl⟩ := run
    simp only [ownInitialiser] at made
    split at made
    · rename_i shadowed
      obtain rfl := List.mem_singleton.mp made
      obtain ⟨member, listed, shadows⟩ := List.any_eq_true.mp shadowed
      cases member with
      | func decl key locals body => exact .initialise isClass listed (of_decide_eq_true shadows) lowered
      | imports | val | container | foreign | expr => cases shadows
    · cases made

theorem classVal_entry (isClass : (S.get id).isClass = true)
    (listed : .val decl key init ∈ members) (run : classVal S decl key init = .ok entries) :
    ∀ entry ∈ entries, Entry S id members entry := by
  intro entry made
  unfold classVal at run
  by_cases mode : decl.mode = .lazy
  · simp only [mode, if_true, Except.bind_ok, Except.pure_ok] at run
    obtain ⟨code, lowered, rfl⟩ := run
    obtain rfl := List.mem_singleton.mp made
    rw [← bodyPlace_class isClass] at lowered
    exact .lazySlot isClass listed mode lowered
  · simp only [mode, if_false, Except.pure_ok] at run
    subst run
    cases made

theorem moduleVal_entry (isModule : (S.get id).isClass = false)
    (listed : .val decl key init ∈ members)
    (run : moduleVal S (S.get id).qualified decl key init = .ok entries) :
    ∀ entry ∈ entries, Entry S id members entry := by
  intro entry made
  unfold moduleVal at run
  cases mode : decl.mode with
  | inline =>
    simp only [mode, Except.pure_ok] at run
    subst run
    cases made
  | strict =>
    simp only [mode, Except.pure_ok] at run
    subst run
    obtain rfl := List.mem_singleton.mp made
    exact .strict isModule listed mode
  | lazy =>
    simp only [mode, Except.bind_ok, Except.pure_ok] at run
    obtain ⟨code, lowered, rfl⟩ := run
    obtain rfl := List.mem_singleton.mp made
    rw [← bodyPlace_module isModule] at lowered
    exact .lazy isModule listed mode lowered

/-- The members that follow a value are lowered the same way in modules and classes. -/
theorem lowerMembers_val_ok (run : lowerMembers S (S.get id) (.val decl key init :: rest) = .ok entries)
    (listed : .val decl key init ∈ members) :
    ∃ first others, (∀ entry ∈ first, Entry S id members entry) ∧
      lowerMembers S (S.get id) rest = .ok others ∧ entries = first ++ others := by
  rw [lowerMembers] at run
  cases isClass : (S.get id).isClass with
  | true =>
    simp only [isClass, if_true, Except.bind_ok, Except.pure_ok] at run
    obtain ⟨first, one, others, lowered, rfl⟩ := run
    exact ⟨first, others, classVal_entry isClass listed one, lowered, rfl⟩
  | false =>
    simp only [isClass, Bool.false_eq_true, if_false, Except.bind_ok, Except.pure_ok] at run
    obtain ⟨first, one, others, lowered, rfl⟩ := run
    exact ⟨first, others, moduleVal_entry isClass listed one, lowered, rfl⟩

theorem func_entry (listed : .func decl key locals body ∈ members)
    (run : funcProcedure S (S.get id).isClass key locals body = .ok entries) :
    ∀ entry ∈ entries, Entry S id members entry := by
  intro entry made
  simp only [funcProcedure, Except.bind_ok, Except.pure_ok] at run
  obtain ⟨code, lowered, rfl⟩ := run
  obtain rfl := List.mem_singleton.mp made
  cases isClass : (S.get id).isClass with
  | true => exact .method isClass listed lowered
  | false => exact .func isClass listed lowered

mutual

/-- The code of a container comes from the container or from one that is nested in it. -/
theorem lowerContainer_entries {bodies : List (ContainerId × TypedExpr)} :
    ∀ {container : TypedContainer} {entries : List (String × Procedure)}, container.Fits base S →
      (∀ body ∈ container.bodies, body ∈ bodies) →
      lowerContainer S container = .ok entries →
      ∀ entry ∈ entries, ∃ id members, Within base S bodies id members ∧ Entry S id members entry
  | .mk _ id members, _, fits, sub, run => by
    simp only [lowerContainer, Except.bind_ok, Except.pure_ok] at run
    obtain ⟨lead, led, others, lowered, rfl⟩ := run
    have within : Within base S bodies id members := ⟨fits.1, fits.2.1, fits.2.2.2, sub⟩
    intro entry made
    obtain rfl | made := List.mem_cons.mp made
    · exact ⟨id, members, within, leadProcedure_entry led⟩
    obtain made | made := List.mem_append.mp made
    · exact ⟨id, members, within, ownInitialiser_entry led entry made⟩
    · exact lowerMembers_entries within (fun _ listed => listed) lowered entry made

theorem lowerMembers_entries {bodies : List (ContainerId × TypedExpr)} :
    ∀ {id : ContainerId} {members part : List TypedMember} {entries : List (String × Procedure)},
      Within base S bodies id members → (∀ member ∈ part, member ∈ members) →
      lowerMembers S (S.get id) part = .ok entries →
      ∀ entry ∈ entries, ∃ id members, Within base S bodies id members ∧ Entry S id members entry
  | _, _, [], _, _, _, run => by
    simp only [lowerMembers, Except.ok.injEq] at run
    subst run
    simp
  | id, members, .val decl key init :: rest, _, within, sub, run => by
    obtain ⟨first, others, one, lowered, rfl⟩ := lowerMembers_val_ok run (sub _ List.mem_cons_self)
    intro entry made
    obtain made | made := List.mem_append.mp made
    · exact ⟨id, members, within, one entry made⟩
    · exact lowerMembers_entries within (fun _ listed => sub _ (List.mem_cons_of_mem _ listed))
        lowered entry made
  | id, members, .func decl key locals body :: rest, _, within, sub, run => by
    simp only [lowerMembers, Except.bind_ok, Except.pure_ok] at run
    obtain ⟨first, one, others, lowered, rfl⟩ := run
    intro entry made
    obtain made | made := List.mem_append.mp made
    · exact ⟨id, members, within, func_entry (sub _ List.mem_cons_self) one entry made⟩
    · exact lowerMembers_entries within (fun _ listed => sub _ (List.mem_cons_of_mem _ listed))
        lowered entry made
  | id, members, .container nested :: rest, _, within, sub, run => by
    simp only [lowerMembers, Except.bind_ok, Except.pure_ok] at run
    obtain ⟨first, one, others, lowered, rfl⟩ := run
    have listed := sub _ List.mem_cons_self
    have inner : ∀ body ∈ nested.bodies, body ∈ bodies := by
      intro body present
      exact within.bodies body (TypedMember.mem_bodiesAll listed present)
    intro entry made
    obtain made | made := List.mem_append.mp made
    · exact lowerContainer_entries (within.fits.mem listed) inner one entry made
    · exact lowerMembers_entries within (fun _ listed => sub _ (List.mem_cons_of_mem _ listed))
        lowered entry made
  | _, _, .imports _ :: rest, _, within, sub, run | _, _, .foreign _ _ :: rest, _, within, sub, run
  | _, _, .expr _ _ :: rest, _, within, sub, run => by
    simp only [lowerMembers] at run
    exact lowerMembers_entries within (fun _ listed => sub _ (List.mem_cons_of_mem _ listed)) run

end

theorem ownClass?_eq (inPlace : Receiver.InPlace S id receiver) :
    S.ownClass? id = some receiver.cls := by
  obtain ⟨isClass, rfl⟩ := inPlace
  simp [Symbols.ownClass?, isClass]

theorem body_ok (typed : WellTyped S false scope e) (covers : ∀ one ∈ Scope.ids scope, one ∈ locals)
    (places : ∀ receiver ∈ e.receivers false, receiver.InPlace S id) :
    ∃ code, lowerExpr (bodyPlace S id locals) e = .ok code :=
  (lower_ok typed (bodyPlace_stands covers) fun receiver asked =>
    ownClass?_eq (places receiver asked)).1

theorem val_ok (fits : TypedMember.Fits base S id (.val decl key init))
    (places : ∀ receiver ∈ init.receivers false, receiver.InPlace S id) :
    ∃ code, lowerExpr (bodyPlace S id []) init = .ok code := by
  obtain ⟨-, -, -, -, -, scope, inside, typed⟩ := fits
  exact body_ok typed (by simp [inside.plain]) places

theorem expr_ok (fits : TypedMember.Fits base S id (.expr span value))
    (places : ∀ receiver ∈ value.receivers false, receiver.InPlace S id) :
    ∃ code, lowerExpr (bodyPlace S id []) value = .ok code := by
  obtain ⟨-, scope, inside, typed⟩ := fits
  exact body_ok typed (by simp [inside.plain]) places

theorem func_ok (fits : TypedMember.Fits base S id (.func decl key ids body))
    (places : ∀ receiver ∈ body.receivers false, receiver.InPlace S id) :
    ∃ code, lowerExpr (bodyPlace S id ids) body = .ok code := by
  obtain ⟨-, -, -, -, scope, locals, inside, rfl, typed, -⟩ := fits
  refine body_ok typed ?_ places
  intro one listed
  have plain := inside.plain
  simp only [Scope.ids, List.flatMap_cons, List.mem_append] at listed plain
  rw [plain] at listed
  simpa using listed

theorem moduleSteps_ok (isModule : (S.get id).isClass = false)
    (fits : TypedMember.FitsAll base S id members)
    (places : Receiver.InPlaceAll S (TypedMember.bodiesAll id members)) :
    ∃ steps, moduleSteps S members = .ok steps := by
  induction members with
  | nil => exact ⟨_, rfl⟩
  | cons member rest ih =>
    cases member with
    | imports _ | foreign _ _ | func _ _ _ _ | container _ =>
      exact ih fits.2 fun body listed => places body (List.mem_append_right _ listed)
    | val decl key init =>
      obtain ⟨steps, others⟩ :=
        ih fits.2 fun body listed => places body (List.mem_append_right _ listed)
      obtain ⟨code, lowered⟩ := val_ok fits.1 (places _ List.mem_cons_self)
      rw [bodyPlace_module isModule] at lowered
      by_cases strict : decl.mode = .strict
      · simp only [moduleSteps, strict, if_true, lowered, others, bind, Except.bind]
        exact ⟨_, rfl⟩
      · simp only [moduleSteps, strict, if_false, others]
        exact ⟨_, rfl⟩
    | expr span value =>
      obtain ⟨steps, others⟩ :=
        ih fits.2 fun body listed => places body (List.mem_append_right _ listed)
      obtain ⟨code, lowered⟩ := expr_ok fits.1 (places _ List.mem_cons_self)
      rw [bodyPlace_module isModule] at lowered
      simp only [moduleSteps, lowered, others, bind, Except.bind]
      exact ⟨_, rfl⟩

theorem classSteps_ok (isClass : (S.get id).isClass = true)
    (fits : TypedMember.FitsAll base S id members)
    (places : Receiver.InPlaceAll S (TypedMember.bodiesAll id members)) :
    ∃ steps, classSteps S members = .ok steps := by
  induction members with
  | nil => exact ⟨_, rfl⟩
  | cons member rest ih =>
    cases member with
    | imports _ | foreign _ _ | func _ _ _ _ | container _ =>
      exact ih fits.2 fun body listed => places body (List.mem_append_right _ listed)
    | val decl key init =>
      obtain ⟨steps, others⟩ :=
        ih fits.2 fun body listed => places body (List.mem_append_right _ listed)
      obtain ⟨code, lowered⟩ := val_ok fits.1 (places _ List.mem_cons_self)
      rw [bodyPlace_class isClass] at lowered
      by_cases strict : decl.mode = .strict
      · simp only [classSteps, strict, if_true, lowered, others, bind, Except.bind]
        exact ⟨_, rfl⟩
      · simp only [classSteps, strict, if_false, others]
        exact ⟨_, rfl⟩
    | expr span value =>
      obtain ⟨steps, others⟩ :=
        ih fits.2 fun body listed => places body (List.mem_append_right _ listed)
      obtain ⟨code, lowered⟩ := expr_ok fits.1 (places _ List.mem_cons_self)
      rw [bodyPlace_class isClass] at lowered
      simp only [classSteps, lowered, others, bind, Except.bind]
      exact ⟨_, rfl⟩

theorem leadProcedure_ok (fits : TypedMember.FitsAll base S id members)
    (places : Receiver.InPlaceAll S (TypedMember.bodiesAll id members)) :
    ∃ lead, leadProcedure S (S.get id) members = .ok lead := by
  unfold leadProcedure
  cases isClass : (S.get id).isClass with
  | true =>
    obtain ⟨steps, lowered⟩ := classSteps_ok isClass fits places
    simp only [if_true, lowered, bind, Except.bind]
    exact ⟨_, rfl⟩
  | false =>
    obtain ⟨steps, lowered⟩ := moduleSteps_ok isClass fits places
    simp only [Bool.false_eq_true, if_false, lowered, bind, Except.bind]
    exact ⟨_, rfl⟩

theorem classVal_ok (isClass : (S.get id).isClass = true)
    (lowered : lowerExpr (bodyPlace S id []) init = .ok code) :
    ∃ entries, classVal S decl key init = .ok entries := by
  rw [bodyPlace_class isClass] at lowered
  simp only [classVal, lowered, bind, Except.bind]
  split <;> exact ⟨_, rfl⟩

theorem moduleVal_ok (isModule : (S.get id).isClass = false)
    (lowered : lowerExpr (bodyPlace S id []) init = .ok code) :
    ∃ entries, moduleVal S qualified decl key init = .ok entries := by
  rw [bodyPlace_module isModule] at lowered
  simp only [moduleVal, lowered, bind, Except.bind]
  split <;> exact ⟨_, rfl⟩

mutual

/-- A container has code if every object that is asked for in it is in place. -/
theorem lowerContainer_ok : ∀ {container : TypedContainer}, container.Fits base S →
    Receiver.InPlaceAll S container.bodies → ∃ entries, lowerContainer S container = .ok entries
  | .mk _ id members, fits, places => by
    obtain ⟨lead, led⟩ := leadProcedure_ok fits.2.2.2 places
    obtain ⟨others, lowered⟩ := lowerMembers_ok fits.2.2.2 places
    simp only [lowerContainer, led, lowered, bind, Except.bind]
    exact ⟨_, rfl⟩

theorem lowerMembers_ok : ∀ {id : ContainerId} {members : List TypedMember},
    TypedMember.FitsAll base S id members → Receiver.InPlaceAll S (TypedMember.bodiesAll id members) →
    ∃ entries, lowerMembers S (S.get id) members = .ok entries
  | _, [], _, _ => ⟨_, by rw [lowerMembers]⟩
  | id, .val decl key init :: rest, fits, places => by
    obtain ⟨others, lowered⟩ := lowerMembers_ok fits.2
      fun body listed => places body (List.mem_append_right _ listed)
    obtain ⟨code, own⟩ := val_ok fits.1 (places _ List.mem_cons_self)
    rw [lowerMembers]
    cases isClass : (S.get id).isClass with
    | true =>
      obtain ⟨first, one⟩ : ∃ first, classVal S decl key init = .ok first := classVal_ok isClass own
      simp only [if_true, one, lowered, bind, Except.bind]
      exact ⟨_, rfl⟩
    | false =>
      obtain ⟨first, one⟩ : ∃ first, moduleVal S (S.get id).qualified decl key init = .ok first :=
        moduleVal_ok isClass own
      simp only [Bool.false_eq_true, if_false, one, lowered, bind, Except.bind]
      exact ⟨_, rfl⟩
  | id, .func decl key ids body :: rest, fits, places => by
    obtain ⟨others, lowered⟩ := lowerMembers_ok fits.2
      fun body listed => places body (List.mem_append_right _ listed)
    obtain ⟨code, own⟩ := func_ok fits.1 (places _ List.mem_cons_self)
    unfold bodyPlace at own
    simp only [lowerMembers, funcProcedure, own, lowered, bind, Except.bind]
    exact ⟨_, rfl⟩
  | id, .container nested :: rest, fits, places => by
    obtain ⟨others, lowered⟩ := lowerMembers_ok fits.2
      fun body listed => places body (List.mem_append_right _ listed)
    obtain ⟨first, one⟩ := lowerContainer_ok fits.1
      fun body listed => places body (List.mem_append_left _ listed)
    simp only [lowerMembers, one, lowered, bind, Except.bind]
    exact ⟨_, rfl⟩
  | _, .imports _ :: rest, fits, places | _, .foreign _ _ :: rest, fits, places => by
    obtain ⟨others, lowered⟩ := lowerMembers_ok fits.2 places
    exact ⟨others, by rw [lowerMembers, lowered]⟩
  | _, .expr _ _ :: rest, fits, places => by
    obtain ⟨others, lowered⟩ := lowerMembers_ok fits.2
      fun body listed => places body (List.mem_append_right _ listed)
    exact ⟨others, by rw [lowerMembers, lowered]⟩

end

theorem mapM_ok {f : α → Except ε β} {xs : List α} (each : ∀ x ∈ xs, ∃ y, f x = .ok y) :
    ∃ ys, xs.mapM f = .ok ys := by
  induction xs with
  | nil => exact ⟨[], rfl⟩
  | cons x rest ih =>
    obtain ⟨y, one⟩ := each x List.mem_cons_self
    obtain ⟨ys, others⟩ := ih fun x listed => each x (List.mem_cons_of_mem _ listed)
    exact ⟨y :: ys, by simp [List.mapM_cons, one, others, bind, Except.bind, pure, Except.pure]⟩

theorem mem_of_mapM {f : α → Except ε β} {xs : List α} (run : xs.mapM f = .ok ys) (listed : y ∈ ys) :
    ∃ x ∈ xs, f x = .ok y := by
  induction xs generalizing ys with
  | nil =>
    obtain rfl : ys = [] := by simpa [pure, Except.pure, eq_comm] using run
    cases listed
  | cons x rest ih =>
    simp only [List.mapM_cons, Except.bind_ok, Except.pure_ok] at run
    obtain ⟨first, one, others, more, rfl⟩ := run
    obtain rfl | listed := List.mem_cons.mp listed
    · exact ⟨x, List.mem_cons_self, one⟩
    · obtain ⟨x, present, made⟩ := ih more listed
      exact ⟨x, List.mem_cons_of_mem _ present, made⟩

/-- A unit has code if every object that is asked for in it is in place. -/
theorem lowerProgram_ok {program : TypedProgram} (fits : ∀ item ∈ program.items, item.Fits base S)
    (places : Receiver.InPlaceAll S program.bodies) : ∃ artifacts, lowerProgram S program = .ok artifacts := by
  refine mapM_ok fun item listed => ?_
  obtain ⟨entries, lowered⟩ := lowerContainer_ok (fits item listed) fun body present =>
    places body (List.mem_flatMap.mpr ⟨item, listed, present⟩)
  exact ⟨⟨item.source.name, entries⟩, by simp [lowered, bind, Except.bind, pure, Except.pure]⟩

/-- The code of a unit comes from its containers. -/
theorem lowerProgram_entries {program : TypedProgram}
    (fits : ∀ item ∈ program.items, item.Fits base S) (run : lowerProgram S program = .ok artifacts) :
    ∀ artifact ∈ artifacts, ∀ entry ∈ artifact.procedures, ∃ id members,
      Within base S program.bodies id members ∧ Entry S id members entry := by
  intro artifact listed entry made
  obtain ⟨item, present, lowered⟩ := mem_of_mapM run listed
  simp only [Except.bind_ok, Except.pure_ok] at lowered
  obtain ⟨entries, lowered, rfl⟩ := lowered
  refine lowerContainer_entries (fits item present) ?_ lowered entry made
  exact fun body listed => List.mem_flatMap.mpr ⟨item, present, listed⟩

end Lowering

end ScriptShell
