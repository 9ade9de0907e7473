import ScriptShell.Proofs.Lowering.Receivers

/-! Lowering has an answer for every well-typed expression that stands at its place: all locals in sight
are bound there, and an object that the expression asks for without naming it is at hand. -/
namespace ScriptShell

theorem Except.bind_ok {x : Except ε α} {f : α → Except ε β} :
    (x >>= f) = .ok b ↔ ∃ a, x = .ok a ∧ f a = .ok b := by
  cases x with
  | error error => simp [bind, Except.bind]
  | ok a => simp [bind, Except.bind]

theorem Except.pure_ok {a b : α} : (pure a : Except ε α) = .ok b ↔ b = a := by
  simp [pure, Except.pure, eq_comm]

namespace Lowering

/-- A place in code fits a scope; `own` is the class of the object at hand. -/
structure Place.Stands (S : Symbols) (own : Option ContainerId) (scope : Scope) (place : Place) :
    Prop where
  symbols : place.symbols = S
  self : place.hasSelf = own.isSome
  locals : ∀ id ∈ scope.ids, id ∈ place.locals

variable {S : Symbols} {own : Option ContainerId} {scope : Scope} {place : Place}

theorem mem_ids_of_lookup {frame : Frame} (visible : frame ∈ scope)
    (named : frame.locals.lookup name = some found) : found.id ∈ scope.ids := by
  refine List.mem_flatMap.mpr ⟨frame, visible, List.mem_map.mpr ⟨(name, found), ?_, rfl⟩⟩
  exact mem_of_lookup named

/-- The place of an import is among the frames around a name. -/
theorem Place.Stands.atImport {frame : Frame} (stands : place.Stands S own scope)
    (around : frame :: outer <:+ scope) :
    place.Stands S own ({ frame with imports := earlier } :: outer) where
  symbols := stands.symbols
  self := stands.self
  locals := by
    intro id listed
    obtain ⟨front, rfl⟩ := around
    refine stands.locals id ?_
    simp only [Scope.ids, List.flatMap_append, List.flatMap_cons, List.mem_append] at listed ⊢
    exact .inr listed

theorem Place.Stands.inner {locals : List (String × Local)}
    (stands : place.Stands S own ({ locals } :: scope)) (name : String) (found : Local) :
    { place with locals := found.id :: place.locals : Place }.Stands S own
      ({ locals := (name, found) :: locals } :: scope) where
  symbols := stands.symbols
  self := stands.self
  locals := by
    intro id listed
    simp only [Scope.ids, List.flatMap_cons, List.map_cons, List.cons_append,
      List.mem_cons] at listed ⊢
    obtain rfl | listed := listed
    · exact .inl rfl
    · exact .inr (stands.locals id listed)

theorem Place.Stands.enter (stands : place.Stands S own scope) :
    place.Stands S own ({ } :: scope) :=
  ⟨stands.symbols, stands.self, stands.locals⟩

theorem self_ok (hasSelf : place.hasSelf = true) : self place span = .ok .self := by
  simp [self, hasSelf]

theorem lowerAll_ok (each : ∀ arg ∈ args, ∃ code, lowerExpr place arg = .ok code) :
    ∃ codes, lowerAll place args = .ok codes := by
  induction args with
  | nil => exact ⟨[], by simp [lowerAll]⟩
  | cons arg rest ih =>
    obtain ⟨code, lowered⟩ := each arg List.mem_cons_self
    obtain ⟨codes, others⟩ := ih fun arg listed => each arg (List.mem_cons_of_mem _ listed)
    exact ⟨code :: codes, by simp [lowerAll, lowered, others, bind, Except.bind, pure, Except.pure]⟩

/-- The steps of a block, each of which is lowered where its part stands. -/
theorem lowerBody_ok {locals : List (String × Local)} {body : List TypedStmt}
    (stands : place.Stands S own ({ locals } :: scope))
    (each : ∀ part ∈ TypedStmt.parts scope locals body, ∀ place : Place,
      place.Stands S own part.1 → ∃ code, lowerExpr place part.2 = .ok code) :
    ∃ steps, lowerBody place body = .ok steps := by
  induction body generalizing locals place with
  | nil => exact ⟨[], by simp [lowerBody]⟩
  | cons stmt rest ih =>
    cases stmt with
    | val span name ascription id init =>
      obtain ⟨code, lowered⟩ := each _ List.mem_cons_self place stands
      obtain ⟨steps, others⟩ := ih (stands.inner name ⟨id, init.type⟩)
        fun part listed => each part (List.mem_cons_of_mem _ listed)
      exact ⟨.bind id code :: steps,
        by simp [lowerBody, lowered, others, bind, Except.bind, pure, Except.pure]⟩
    | expr value =>
      obtain ⟨code, lowered⟩ := each _ List.mem_cons_self place stands
      obtain ⟨steps, others⟩ := ih stands
        fun part listed => each part (List.mem_cons_of_mem _ listed)
      exact ⟨.run code :: steps,
        by simp [lowerBody, lowered, others, bind, Except.bind, pure, Except.pure]⟩

theorem memberName_ok (hasSelf : ofClass = true → place.hasSelf = true) :
    (∃ code, lowerExpr place (.name span type name (.member key ofClass onThis auto)) = .ok code) ∧
      ∃ target, lowerCallee place (.name span type name (.member key ofClass onThis auto)) =
        .ok target := by
  cases ofClass with
  | false => exact ⟨⟨_, rfl⟩, ⟨_, rfl⟩⟩
  | true =>
    simp only [lowerExpr, nameCode, lowerCallee, self_ok (hasSelf rfl), if_true, bind, Except.bind]
    constructor <;> split <;> exact ⟨_, rfl⟩

/-- A well-typed expression has code, as a value and as what a call applies. -/
theorem lower_ok (typed : WellTyped S callee scope e) (stands : place.Stands S own scope)
    (asked : ∀ receiver ∈ e.receivers borrowed, own = some receiver.cls) :
    (∃ code, lowerExpr place e = .ok code) ∧ ∃ target, lowerCallee place e = .ok target := by
  induction typed generalizing place borrowed with
  | int | str | unit | container | builtinShow => exact ⟨⟨_, rfl⟩, ⟨_, rfl⟩⟩
  | this inside =>
    have hasSelf : place.hasSelf = true := by
      rw [stands.self, asked _ List.mem_cons_self]
      rfl
    exact ⟨⟨_, self_ok hasSelf⟩, ⟨_, rfl⟩⟩
  | bound visible named =>
    have listed := stands.locals _ (mem_ids_of_lookup visible named)
    exact ⟨⟨_, by simp [lowerExpr, nameCode, listed]; rfl⟩, ⟨_, rfl⟩⟩
  | @member owner _ _ _ _ _ _ _ found plain inside access =>
    apply memberName_ok
    intro isClass
    have known := asked ⟨owner, borrowed⟩ (by simp [TypedExpr.receivers, Ref.receivers, isClass])
    rw [stands.self, known]
    rfl
  | aliased around path ih => exact ih (stands.atImport around) asked
  | nested object ih => exact ⟨⟨_, rfl⟩, ⟨_, rfl⟩⟩
  | @select _ _ owner _ _ _ _ _ _ object holder found plain access ih =>
    obtain ⟨code, lowered⟩ := (ih stands asked).1
    cases (S.get owner).isClass with
    | false => exact ⟨⟨_, rfl⟩, ⟨_, rfl⟩⟩
    | true =>
      simp only [lowerExpr, lowerCallee, lowered, bind, Except.bind]
      exact ⟨⟨_, rfl⟩, ⟨_, rfl⟩⟩
  | «show» arg value ih =>
    refine ⟨?_, ⟨_, rfl⟩⟩
    obtain ⟨code, lowered⟩ := (ih stands (by simpa [TypedExpr.receivers, TypedExpr.receiversAll,
      Ref.receivers] using asked)).1
    simp only [lowerExpr, lowerCallee, lowerAll, lowered, bind, Except.bind]
    exact ⟨_, rfl⟩
  | call function applies found callable args types target ih =>
    refine ⟨?_, ⟨_, rfl⟩⟩
    simp only [TypedExpr.receivers, List.mem_append, TypedExpr.mem_receiversAll] at asked
    obtain ⟨applied, called⟩ := (target stands fun receiver named => asked receiver (.inl named)).2
    obtain ⟨codes, lowered⟩ := lowerAll_ok fun arg listed =>
      (ih arg listed stands fun receiver named => asked receiver (.inr ⟨arg, listed, named⟩)).1
    simp only [lowerExpr, called, lowered, bind, Except.bind]
    exact ⟨_, rfl⟩
  | convert function applies conversion text types arg target ih =>
    refine ⟨?_, ⟨_, rfl⟩⟩
    simp only [TypedExpr.receivers, TypedExpr.receiversAll, List.append_nil, List.mem_append] at asked
    obtain ⟨applied, called⟩ := (target stands fun receiver named => asked receiver (.inl named)).2
    obtain ⟨code, lowered⟩ := (ih stands fun receiver named => asked receiver (.inr named)).1
    simp only [lowerExpr, called, lowerAll, lowered, bind, Except.bind]
    exact ⟨_, rfl⟩
  | new named cls isClass args target ih =>
    refine ⟨?_, ⟨_, rfl⟩⟩
    simp only [TypedExpr.receivers, List.mem_append, TypedExpr.mem_receiversAll] at asked
    obtain ⟨codes, lowered⟩ := lowerAll_ok fun arg listed =>
      (ih arg listed stands fun receiver named => asked receiver (.inr ⟨arg, listed, named⟩)).1
    simp only [lowerExpr, lowered, bind, Except.bind]
    exact ⟨_, rfl⟩
  | concat first second _ _ one two | compare first second _ _ _ one two
  | arithmetic first second _ _ _ one two =>
    refine ⟨?_, ⟨_, rfl⟩⟩
    simp only [TypedExpr.receivers, List.mem_append] at asked
    obtain ⟨left, lowered⟩ := (one stands fun receiver named => asked receiver (.inl named)).1
    obtain ⟨right, other⟩ := (two stands fun receiver named => asked receiver (.inr named)).1
    simp only [lowerExpr, lowered, other, bind, Except.bind]
    exact ⟨_, rfl⟩
  | unary arg word ih =>
    refine ⟨?_, ⟨_, rfl⟩⟩
    obtain ⟨code, lowered⟩ := (ih stands asked).1
    simp only [lowerExpr, lowered, bind, Except.bind]
    exact ⟨_, rfl⟩
  | when condition word first test one =>
    refine ⟨?_, ⟨_, rfl⟩⟩
    simp only [TypedExpr.receivers, List.append_nil, List.mem_append] at asked
    obtain ⟨code, lowered⟩ := (test stands fun receiver named => asked receiver (.inl named)).1
    obtain ⟨left, other⟩ := (one stands fun receiver named => asked receiver (.inr named)).1
    simp only [lowerExpr, lowered, other, bind, Except.bind]
    exact ⟨_, rfl⟩
  | cond condition word first second same test one two =>
    refine ⟨?_, ⟨_, rfl⟩⟩
    simp only [TypedExpr.receivers, List.mem_append] at asked
    obtain ⟨code, lowered⟩ :=
      (test stands fun receiver named => asked receiver (.inl (.inl named))).1
    obtain ⟨left, other⟩ := (one stands fun receiver named => asked receiver (.inl (.inr named))).1
    obtain ⟨right, last⟩ := (two stands fun receiver named => asked receiver (.inr named)).1
    simp only [lowerExpr, lowered, other, last, bind, Except.bind]
    exact ⟨_, rfl⟩
  | block parts fresh ih =>
    refine ⟨?_, ⟨_, rfl⟩⟩
    obtain ⟨steps, lowered⟩ := lowerBody_ok stands.enter fun part listed place stands =>
      (ih part listed stands fun receiver named =>
        asked receiver (TypedStmt.mem_receiversAll.mpr ⟨part, listed, named⟩)).1
    simp only [lowerExpr, lowered, bind, Except.bind]
    exact ⟨_, rfl⟩

end Lowering

end ScriptShell
