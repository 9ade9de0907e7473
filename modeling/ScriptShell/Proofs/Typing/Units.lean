import ScriptShell.Proofs.Typing.Members

/-! Accepted units are well-typed: the bodies of all members and all expressions fit the symbols that
the unit leaves, each in a scope whose first frame is that of the container around it. -/
namespace ScriptShell

mutual

/-- A typed member fits the symbols of the container it belongs to. -/
def TypedMember.Fits (base : Nat) (S : Symbols) (id : ContainerId) : TypedMember → Prop
  | .imports _ => True
  | .val decl key init =>
    key = ⟨id, decl.name⟩ ∧ S.Has key (.val decl) ∧ init.type.isValue = true ∧
      (decl.mode = .inline → init.type = .int) ∧
      (∀ member, S.member? key = some member → member.type = init.type) ∧
      ∃ scope : Scope, scope.Inside id ∧ WellTyped S false scope init
  | .func decl key ids body =>
    key = ⟨id, decl.name⟩ ∧ S.Has key (.func decl) ∧ body.type.isValue = true ∧ ids.Nodup ∧
      ∃ (scope : Scope) (locals : List (String × Local)), scope.Inside id ∧
        locals.map (·.2.id) = ids ∧ WellTyped S false ({ locals } :: scope) body ∧
        ∀ member, S.member? key = some member → member.type = body.type ∧
          member.params.map (·.type) = locals.map (·.2.type)
  | .foreign decl key => key = ⟨id, decl.name⟩ ∧ S.Has key (.foreign decl)
  | .container decl => decl.Fits base S
  | .expr _ value =>
    value.type.isValue = true ∧ ∃ scope : Scope, scope.Inside id ∧ WellTyped S false scope value

/-- Typed members fit the symbols of their container. -/
def TypedMember.FitsAll (base : Nat) (S : Symbols) (id : ContainerId) : List TypedMember → Prop
  | [] => True
  | member :: rest => member.Fits base S id ∧ TypedMember.FitsAll base S id rest

/-- A typed container fits its symbols, which have a number from `base` on. -/
def TypedContainer.Fits (base : Nat) (S : Symbols) : TypedContainer → Prop
  | .mk source id members =>
    base ≤ id ∧ id < S.containers.size ∧
      (S.get id).isClass = decide (source.kind = .classKind) ∧ TypedMember.FitsAll base S id members

end

theorem TypedMember.FitsAll.append {S : Symbols} {id : ContainerId} {first second : List TypedMember}
    (one : TypedMember.FitsAll base S id first) (two : TypedMember.FitsAll base S id second) :
    TypedMember.FitsAll base S id (first ++ second) := by
  induction first with
  | nil => exact two
  | cons member rest ih => exact ⟨one.1, ih one.2⟩

theorem ValMode.kind_injective {one two : ValMode} (same : one.kind = two.kind) : one = two := by
  cases one <;> cases two <;> first | rfl | cases same

namespace Checking

variable {σ : Type} {env : CheckEnv σ} {base bound : Nat} {s : Checking σ} {id : ContainerId}

/-- A change of a container that leaves its members alone. -/
theorem Advances.editContainer (ready : s.Consistent env bound) (new : base ≤ id)
    {f : ContainerSymbol → ContainerSymbol}
    (keeps : ∀ container, (f container).shape = container.shape)
    (members : ∀ container, (f container).members = container.members) :
    s.Advances env base bound { s with symbols := s.symbols.modify id f } := by
  have same : ∀ key, (s.symbols.modify id f).member? key = s.symbols.member? key := by
    intro key
    unfold Symbols.member? ContainerSymbol.find?
    rw [Symbols.members_modify members]
  have grows : s.Grows base none { s with symbols := s.symbols.modify id f } := by
    constructor
    case below =>
      refine ⟨Symbols.shape_modify _ _ keeps, ?_⟩
      intro key _ before after found later
      simp only [same] at later
      rw [found] at later
      cases later
      exact ⟨rfl, rfl⟩
    case old =>
      intro other small
      refine Symbols.get_modify_other ?_ f
      rintro rfl
      exact Nat.not_lt_of_le new small
    case size => exact Symbols.size_modify _ _ _
    case keys => rfl
    case begun => exact fun _ _ _ found _ => found
    case kept => exact fun key _ _ _ _ => same key
    case pending => exact Nat.le_refl _
    case bodies => exact fun _ listed => listed
    case locals => exact Nat.le_refl _
    case worded =>
      intro worded key member found
      simp only [same] at found
      exact worded key member found
    case valued =>
      intro valued key member found
      simp only [same] at found
      exact valued key member found
  refine ⟨grows, ready.of_grows grows (fun S => grows.below.lower rfl) ready.flags ?_ rfl⟩
  intro key own listed pending member found
  simp only [same] at found
  exact ready.waiting key own listed pending member found

end Checking

namespace Typing

open Checking

variable {σ : Type} {env : CheckEnv σ} {base bound : Nat} {s s' : Checking σ} {id : ContainerId}

/-- A constructor parameter is not among the members that wait for a check. -/
theorem unlisted_of_param (ready : s.Consistent env bound)
    (found : s.symbols.member? key = some member) (param : member.isParam = true) :
    s.progress.lookup key = none := by
  have present := lookup_isSome_iff_of_keys ready.keys key
  cases listed : env.decls.lookup key with
  | none =>
    rw [listed] at present
    simpa using present
  | some decl =>
    obtain ⟨other, declared, -, stored, -⟩ := (ready.decls key decl listed).symbol
    rw [found, Option.some.injEq] at declared
    rw [← declared, param] at stored
    cases stored

/-- A constructor parameter gets its type, in its class as well. -/
theorem setParam_advances (ready : s.Consistent env bound) (new : base ≤ id)
    (found : s.symbols.member? ⟨id, name⟩ = some member) (stored : member.isParam = true)
    (isVal : member.kind = .val) {type : Ty} (valued : type.OfMember) :
    s.Advances env base bound { s with
      symbols := (s.symbols.modifyMember ⟨id, name⟩ ({ · with type })).modify id fun container =>
        { container with params := container.params ++ [⟨name, type⟩] } } := by
  have free : ¬ s.Settled ⟨id, name⟩ := by
    intro settled
    simp [settled.2 member found] at stored
  have words : ∀ own, s.symbols.member? ⟨id, name⟩ = some own → own.kind = .inlineVal →
      own.constant = 0 ∨ own.type = .int → own.constant = 0 ∨ type = .int := by
    intro own present inline
    rw [found, Option.some.injEq] at present
    rw [← present, isVal] at inline
    cases inline
  have edit : s.Advances env base bound
      { s with symbols := s.symbols.modifyMember ⟨id, name⟩ ({ · with type }) } :=
    ⟨.edit new (fun _ => rfl) (fun _ _ => valued) (.inl free) (.inr (unlisted_of_param ready found stored))
        words,
      ready.edit new (fun _ => rfl) (fun _ _ => valued) (.inl free) (.inr fun _ => ⟨rfl, rfl⟩) words⟩
  exact edit.trans (.editContainer edit.consistent new (fun _ => rfl) (fun _ => rfl))

theorem resolveParams_spec (visits : VisitKeeps env base bound (visitMember env))
    (ready : s.Consistent env bound) (new : base ≤ id)
    (params : ∀ param ∈ decls, ∃ member, s.symbols.member? ⟨id, param.name⟩ = some member ∧
      member.isParam = true ∧ member.kind = .val)
    (run : resolveParams env outer id decls s = .ok u s') : s.Advances env base bound s' := by
  induction decls generalizing s with
  | nil =>
    obtain ⟨-, rfl⟩ := Check.pure_ok.mp run
    exact .refl ready
  | cons param rest ih =>
    simp only [resolveParams, Check.bind_ok, Check.modifyMember_ok, Check.modify_ok] at run
    obtain ⟨type, t, resolved, _, _, rfl, _, _, rfl, run⟩ := run
    have steps := (resolveType_spec visits ready resolved).1
    obtain ⟨member, found, stored, isVal⟩ := params param List.mem_cons_self
    obtain ⟨later, present, shaped⟩ := Symbols.member?_of_shape steps.shape found
    have all := steps.trans (setParam_advances steps.consistent new present
      ((MemberSymbol.isParam_eq_of_shape shaped).trans stored)
      ((MemberSymbol.kind_eq_of_shape shaped).trans isVal) (resolveType_ofMember visits ready resolved))
    refine all.trans (ih all.consistent ?_ run)
    intro other listed
    obtain ⟨member, found, stored⟩ := params other (List.mem_cons_of_mem _ listed)
    obtain ⟨later, present, shaped⟩ := Symbols.member?_of_shape all.shape found
    exact ⟨later, present, (MemberSymbol.isParam_eq_of_shape shaped).trans stored.1,
      (MemberSymbol.kind_eq_of_shape shaped).trans stored.2⟩

theorem nestedId_ok (found : s.symbols.member? ⟨id, name⟩ = some member)
    (inner : member.nested = some nested)
    (run : (nestedId id name : Check σ ContainerId) s = .ok number s') : number = nested ∧ s' = s := by
  simp only [nestedId, Check.bind_ok, Check.symbols_ok, Check.pure_ok] at run
  obtain ⟨_, _, ⟨rfl, rfl⟩, rfl, rfl⟩ := run
  simp [found, inner]

/-- The constructor parameters of a container and of those nested in it. -/
theorem resolveContainer_spec (visits : VisitKeeps env base bound (visitMember env)) :
    (∀ outer id container (s s' : Checking σ), s.Consistent env bound →
      s.symbols.Holds base id container → resolveContainer env outer id container s = .ok () s' →
      s.Advances env base bound s') ∧
    ∀ scope id members (s s' : Checking σ), s.Consistent env bound →
      s.symbols.HoldsAll base id members → resolveNested env scope id members s = .ok () s' →
      s.Advances env base bound s' := by
  apply resolveContainer.mutual_induct
  case case1 =>
    intro outer id span kind name exported params members nested s s' ready holds run
    simp only [Symbols.Holds] at holds
    obtain ⟨new, -, -, found, inner⟩ := holds
    simp only [resolveContainer, Check.bind_ok] at run
    obtain ⟨_, t, first, second⟩ := run
    have steps := resolveParams_spec visits ready new found first
    exact steps.trans (nested t s' steps.consistent (inner.of_shape steps.shape) second)
  case case2 =>
    intro scope id s s' ready _ run
    rw [resolveNested] at run
    obtain ⟨-, rfl⟩ := Check.pure_ok.mp run
    exact .refl ready
  case case3 =>
    intro scope id decl rest container others s s' ready holds run
    simp only [Symbols.HoldsAll] at holds
    obtain ⟨⟨member, nested, found, inner, held⟩, remaining⟩ := holds
    simp only [resolveNested, Check.bind_ok] at run
    obtain ⟨_, _, number, _, t, first, second⟩ := run
    obtain ⟨rfl, rfl⟩ := nestedId_ok found inner number
    have steps := container _ _ t ready held first
    exact steps.trans (others t s' steps.consistent (remaining.of_shape steps.shape) second)
  case case4 =>
    intro scope id head rest noContainer others s s' ready holds run
    rw [resolveNested] at run
    · refine others s s' ready ?_ run
      cases head with
      | container decl => exact absurd rfl (noContainer decl)
      | imports | expr => simpa only [Symbols.HoldsAll] using holds
      | val | func | foreign =>
        simp only [Symbols.HoldsAll] at holds
        exact holds.2
    · exact noContainer

theorem mapM_keeps {f : α → Check σ β} (keeps : ∀ a t b t', f a t = .ok b t' → t' = t)
    {list : List α} (run : list.mapM f s = .ok found s') : s' = s := by
  induction list generalizing s found with
  | nil =>
    rw [List.mapM_nil] at run
    exact (Check.pure_ok.mp run).2.symm
  | cons first rest ih =>
    simp only [List.mapM_cons, Check.bind_ok, Check.pure_ok] at run
    obtain ⟨_, _, one, _, _, others, -, rfl⟩ := run
    rw [ih others, keeps _ _ _ _ one]

theorem picked_ok {sought : Option MemberSymbol}
    (run : (match sought with
      | some member => return member.implicit
      | none => Check.fail span cause : Check σ Bool) s = .ok implicit s') : s' = s := by
  cases sought with
  | some member => exact (Check.pure_ok.mp run).2.symm
  | none => exact (Check.fail_ok.mp run).elim

theorem checkImport_spec (visits : VisitKeeps env base bound (visitMember env))
    (ready : s.Consistent env bound) (run : checkImport env own scope s = .ok typed s') :
    s.Advances env base bound s' := by
  simp only [checkImport, Check.bind_ok, Check.symbols_ok, Check.pure_ok] at run
  obtain ⟨path, t, resolved, _, _, ⟨rfl, rfl⟩, implicits, _, picked, -, rfl⟩ := run
  have steps := importPath_spec visits ready resolved
  rw [mapM_keeps (fun _ _ _ _ => picked_ok) picked]
  exact steps

theorem checkImports_spec (visits : VisitKeeps env base bound (visitMember env))
    (ready : s.Consistent env bound) (run : checkImports env scope index imports s = .ok typed s') :
    s.Advances env base bound s' := by
  induction imports generalizing s index typed with
  | nil =>
    obtain ⟨-, rfl⟩ := Check.pure_ok.mp run
    exact .refl ready
  | cons first rest ih =>
    unfold checkImports at run
    cases sought : importAt? scope index with
    | some place =>
      simp only [sought, Check.bind_ok, Check.pure_ok] at run
      obtain ⟨_, t, one, _, _, others, -, rfl⟩ := run
      have steps := checkImport_spec visits ready one
      exact steps.trans (ih steps.consistent others)
    | none =>
      simp only [sought, Check.pure_ok] at run
      obtain ⟨-, rfl⟩ := run
      exact .refl ready

/-- A body that is kept belongs to a member of the unit. -/
theorem body_fits (ready : s.Consistent env bound) (below : s.Below S)
    (kept : s.bodies.lookup key = some body) :
    ∃ pending : PendingDecl, pending.Fits S key ∧ body.Fits pending S key := by
  obtain ⟨pending, listed, fits⟩ := ready.bodies S below _ (mem_of_lookup kept)
  exact ⟨pending, (ready.decls key pending listed).of_shape below.shape, fits⟩

/-- The kind of a symbol tells how a value was declared. -/
theorem mode_eq {S : Symbols} {decl other : ValDecl} (one : S.Has key (.val decl))
    (two : S.Has key (.val other)) : decl.mode = other.mode := by
  obtain ⟨first, found, -, -, -, kind, -⟩ := one
  obtain ⟨second, again, -, -, -, same, -⟩ := two
  rw [found, Option.some.injEq] at again
  rw [← again, kind] at same
  exact ValMode.kind_injective same

theorem typedMember?_spec (ready : s.Consistent env bound) (has : s.symbols.Has ⟨id, name⟩ member)
    (run : (typedMember? ⟨id, name⟩ member : Check σ _) s = .ok typed s') :
    s' = s ∧ ∀ S, s.Below S → TypedMember.FitsAll base S id typed.toList := by
  simp only [typedMember?, Check.bind_ok, Check.get_ok] at run
  obtain ⟨_, _, ⟨rfl, rfl⟩, run⟩ := run
  have nothing : (pure none : Check σ (Option TypedMember)) s = .ok typed s' →
      s' = s ∧ ∀ S, s.Below S → TypedMember.FitsAll base S id typed.toList := by
    intro run
    obtain ⟨rfl, rfl⟩ := Check.pure_ok.mp run
    exact ⟨rfl, fun _ _ => trivial⟩
  cases kept : s.bodies.lookup ⟨id, name⟩ with
  | none => exact nothing (by cases member <;> simpa only [kept] using run)
  | some body =>
    cases member with
    | val decl =>
      cases body with
      | func | foreign => exact nothing (by simpa only [kept] using run)
      | val init =>
        simp only [kept, Check.pure_ok] at run
        obtain ⟨rfl, rfl⟩ := run
        refine ⟨rfl, fun S below => ⟨?_, trivial⟩⟩
        obtain ⟨pending, fits, own, of, well, isValue, type, inline⟩ := body_fits ready below kept
        have later := has.of_shape below.shape
        have mode := mode_eq later (of ▸ fits.symbol)
        obtain ⟨-, -, -, -, named, -, -⟩ := has
        exact ⟨congrArg _ named.symm, later, isValue, fun is => inline (mode ▸ is), type,
          pending.scope, fits.inside, well⟩
    | func decl =>
      cases body with
      | val | foreign => exact nothing (by simpa only [kept] using run)
      | func ids body =>
        simp only [kept, Check.pure_ok] at run
        obtain ⟨rfl, rfl⟩ := run
        refine ⟨rfl, fun S below => ⟨?_, trivial⟩⟩
        obtain ⟨pending, fits, own, locals, of, numbers, nodup, well, isValue, types⟩ :=
          body_fits ready below kept
        have later := has.of_shape below.shape
        obtain ⟨-, -, -, -, named, -, -⟩ := has
        exact ⟨congrArg _ named.symm, later, isValue, nodup, pending.scope, locals, fits.inside,
          numbers, well, types⟩
    | foreign decl =>
      cases body with
      | val | func => exact nothing (by simpa only [kept] using run)
      | foreign =>
        simp only [kept, Check.pure_ok] at run
        obtain ⟨rfl, rfl⟩ := run
        refine ⟨rfl, fun S below => ⟨?_, trivial⟩⟩
        have later := has.of_shape below.shape
        obtain ⟨-, -, -, -, named, -, -⟩ := has
        exact ⟨congrArg _ named.symm, later⟩
    | imports | container | expr => exact nothing (by simpa only [kept] using run)

theorem checkOwn_spec (visits : VisitKeeps env base bound (visitMember env))
    (ready : s.Consistent env bound) (has : s.symbols.Has ⟨id, name⟩ member)
    (run : checkOwn env ⟨id, name⟩ member s = .ok typed s') :
    s.Advances env base bound s' ∧ ∀ S, s'.Below S → TypedMember.FitsAll base S id typed := by
  simp only [checkOwn, Check.bind_ok, Check.pure_ok] at run
  obtain ⟨_, t, visited, found, _, taken, rfl, rfl⟩ := run
  have steps := visits.advances _ _ _ ready visited
  obtain ⟨rfl, fits⟩ := typedMember?_spec steps.consistent (has.of_shape steps.shape) taken
  exact ⟨steps, fits⟩

/-- All members of a container and of those nested in it are checked into members that fit. -/
theorem checkContainer_spec (visits : VisitKeeps env base bound (visitMember env)) :
    (∀ outer id container (s s' : Checking σ) typed, s.Consistent env bound →
      Scope.ids outer = [] → s.symbols.Holds base id container →
      checkContainer env outer id container s = .ok typed s' →
      s.Advances env base bound s' ∧ typed.source = container ∧ ∀ S, s'.Below S → typed.Fits base S) ∧
    ∀ scope id index members (s s' : Checking σ) typed, s.Consistent env bound →
      scope.Inside id → s.symbols.HoldsAll base id members →
      checkMembers env scope id index members s = .ok typed s' →
      s.Advances env base bound s' ∧ ∀ S, s'.Below S → TypedMember.FitsAll base S id typed := by
  have step : ∀ {s t s' : Checking σ} {id first rest}, s.Advances env base bound t →
      (∀ S, t.Below S → TypedMember.FitsAll base S id first) →
      t.Advances env base bound s' ∧ (∀ S, s'.Below S → TypedMember.FitsAll base S id rest) →
      s.Advances env base bound s' ∧ ∀ S, s'.Below S → TypedMember.FitsAll base S id (first ++ rest) := by
    intro s t s' id first rest steps one others
    exact ⟨steps.trans others.1, fun S below => (one S (others.1.below below)).append (others.2 S below)⟩
  have single : ∀ {s t s' : Checking σ} {id first rest}, s.Advances env base bound t →
      (∀ S, t.Below S → TypedMember.Fits base S id first) →
      t.Advances env base bound s' ∧ (∀ S, s'.Below S → TypedMember.FitsAll base S id rest) →
      s.Advances env base bound s' ∧ ∀ S, s'.Below S → TypedMember.FitsAll base S id (first :: rest) := by
    intro s t s' id first rest steps one others
    exact ⟨steps.trans others.1, fun S below => ⟨one S (others.1.below below), others.2 S below⟩⟩
  apply checkContainer.mutual_induct
  case case1 =>
    intro outer id span kind name exported params members all s s' typed ready plain holds run
    simp only [Symbols.Holds] at holds
    simp only [checkContainer, Check.bind_ok, Check.pure_ok] at run
    obtain ⟨_, t, checked, rfl, rfl⟩ := run
    obtain ⟨steps, fits⟩ := all s t _ ready (inside_containerFrame plain) holds.2.2.2.2 checked
    refine ⟨steps, rfl, fun S below => ?_⟩
    have shape := below.shape.trans steps.shape
    refine ⟨holds.1, ?_, ?_, fits S below⟩
    · rw [Symbols.size_of_shape shape]
      exact holds.2.1
    · rw [Symbols.isClass_of_shape shape]
      exact holds.2.2.1
  case case2 =>
    intro scope id index s s' typed ready _ _ run
    rw [checkMembers] at run
    obtain ⟨rfl, rfl⟩ := Check.pure_ok.mp run
    exact ⟨.refl ready, fun _ _ => trivial⟩
  case case3 =>
    intro scope id index decl rest own place sought others s s' typed ready spot holds run
    rw [checkMembers] at run
    simp only [sought, Check.bind_ok, Check.pure_ok] at run
    obtain ⟨first, t, one, _, _, more, rfl, rfl⟩ := run
    have steps := checkImport_spec visits ready one
    simp only [Symbols.HoldsAll] at holds
    have later := others t _ _ steps.consistent spot (holds.of_shape steps.shape) more
    exact single steps (fun _ _ => trivial) later
  case case4 =>
    intro scope id index decl rest sought s s' typed ready _ _ run
    rw [checkMembers] at run
    simp only [sought, Check.pure_ok] at run
    obtain ⟨rfl, rfl⟩ := run
    exact ⟨.refl ready, fun _ _ => trivial⟩
  case case5 | case6 | case7 =>
    intro scope id index decl rest others s s' typed ready spot holds run
    rw [checkMembers] at run
    simp only [Check.bind_ok, Check.pure_ok] at run
    obtain ⟨first, t, one, _, _, more, rfl, rfl⟩ := run
    simp only [Symbols.HoldsAll] at holds
    obtain ⟨steps, fits⟩ := checkOwn_spec visits ready holds.1 one
    exact step steps fits (others t _ _ steps.consistent spot (holds.2.of_shape steps.shape) more)
  case case8 =>
    intro scope id index decl rest container others s s' typed ready spot holds run
    rw [checkMembers] at run
    simp only [Check.bind_ok, Check.pure_ok] at run
    obtain ⟨_, _, number, first, t, one, _, _, more, rfl, rfl⟩ := run
    simp only [Symbols.HoldsAll] at holds
    obtain ⟨⟨member, nested, found, inner, held⟩, remaining⟩ := holds
    obtain ⟨rfl, rfl⟩ := nestedId_ok found inner number
    obtain ⟨steps, -, fits⟩ := container _ _ t _ ready spot.plain held one
    exact single steps fits
      (others t _ _ steps.consistent spot (remaining.of_shape steps.shape) more)
  case case9 =>
    intro scope id index span value rest others s s' typed ready spot holds run
    rw [checkMembers] at run
    simp only [Check.bind_ok, Check.pure_ok] at run
    obtain ⟨first, t, one, _, _, more, rfl, rfl⟩ := run
    simp only [Symbols.HoldsAll] at holds
    have numbered : Numbered scope s := by
      intro id listed
      rw [spot.plain] at listed
      cases listed
    obtain ⟨steps, isValue, well⟩ := checkValue_spec visits ready numbered one
    exact single steps (fun S below => ⟨isValue, scope, spot, well S below⟩)
      (others t _ _ steps.consistent spot (holds.of_shape steps.shape) more)

theorem resolveItems_spec (visits : VisitKeeps env base bound (visitMember env))
    (ready : s.Consistent env bound) {items : List (Container × ContainerId)}
    (holds : ∀ item ∈ items, s.symbols.Holds base item.2 item.1)
    (run : (forIn items PUnit.unit fun (item : Container × ContainerId) (_ : PUnit) => (do
      resolveContainer env unit item.2 item.1
      return .yield PUnit.unit : Check σ (ForInStep PUnit))) s = .ok u s') :
    s.Advances env base bound s' := by
  induction items generalizing s with
  | nil =>
    rw [List.forIn_nil] at run
    obtain ⟨-, rfl⟩ := Check.pure_ok.mp run
    exact .refl ready
  | cons item rest ih =>
    simp only [List.forIn_cons, Check.bind_ok, Check.pure_ok] at run
    obtain ⟨_, _, ⟨_, t, resolved, rfl, rfl⟩, run⟩ := run
    have steps := (resolveContainer_spec visits).1 _ _ _ s t ready
      (holds item List.mem_cons_self) resolved
    refine steps.trans (ih steps.consistent ?_ run)
    exact fun item listed => (holds item (List.mem_cons_of_mem _ listed)).of_shape steps.shape

theorem checkItems_spec (visits : VisitKeeps env base bound (visitMember env))
    (ready : s.Consistent env bound) (plain : Scope.ids unit = [])
    {items : List (Container × ContainerId)}
    (holds : ∀ item ∈ items, s.symbols.Holds base item.2 item.1)
    (run : (items.mapM fun item => checkContainer env unit item.2 item.1) s = .ok typed s') :
    s.Advances env base bound s' ∧ typed.map (·.source) = items.map (·.1) ∧
      ∀ S, s'.Below S → ∀ item ∈ typed, item.Fits base S := by
  induction items generalizing s typed with
  | nil =>
    rw [List.mapM_nil] at run
    obtain ⟨rfl, rfl⟩ := Check.pure_ok.mp run
    exact ⟨.refl ready, rfl, fun _ _ _ none => by cases none⟩
  | cons item rest ih =>
    simp only [List.mapM_cons, Check.bind_ok, Check.pure_ok] at run
    obtain ⟨first, t, one, others, _, more, rfl, rfl⟩ := run
    obtain ⟨steps, source, fits⟩ := (checkContainer_spec visits).1 _ _ _ s t first ready plain
      (holds item List.mem_cons_self) one
    have later : ∀ item ∈ rest, t.symbols.Holds base item.2 item.1 :=
      fun item listed => (holds item (List.mem_cons_of_mem _ listed)).of_shape steps.shape
    obtain ⟨further, sources, fit⟩ := ih steps.consistent later more
    refine ⟨steps.trans further, by rw [List.map_cons, List.map_cons, source, sources], ?_⟩
    intro S below
    exact List.forall_mem_cons.mpr ⟨fits S (further.below below), fit S below⟩

/-- What an accepted unit leaves, behind the symbols of finished units. -/
structure CheckedUnit.Fits (table : SymbolTable) (program : Program) (unit : CheckedUnit) : Prop where
  items : ∀ item ∈ unit.program.items, item.Fits table.symbols.containers.size unit.symbols
  sources : unit.program.items.map (·.source) = program.items
  old : ∀ id < table.symbols.containers.size, unit.symbols.get id = table.symbols.get id
  size : table.symbols.containers.size ≤ unit.symbols.containers.size
  names : table.symbols.NamesDiffer → unit.symbols.NamesDiffer
  modules : (∀ item ∈ program.items, item.classFree = true) →
    ∀ id, table.symbols.containers.size ≤ id → Typing.Modular unit.symbols id
  stored : ∀ id, table.symbols.containers.size ≤ id → (unit.symbols.get id).isClass = true →
    ∀ member ∈ (unit.symbols.get id).members, member.Stored
  titled : ∀ id, table.symbols.containers.size ≤ id →
    ∀ member ∈ (unit.symbols.get id).members, member.Titled
  worded : table.symbols.Worded → unit.symbols.Worded
  valued : table.symbols.Valued → unit.symbols.Valued

/-- The state behind the declarations keeps the invariant. -/
theorem consistent_start (fits : ∀ entry ∈ env.decls, entry.2.Fits T entry.1 ∧ base ≤ entry.1.owner)
    (bare : ∀ id, base ≤ id → Bare T id) {start : σ} :
    Consistent env (env.decls.length + 1)
      { symbols := T, progress := env.decls.map fun entry => (entry.1, {}), host := start } := by
  constructor
  case keys => simp
  case flags =>
    intro entry listed
    obtain ⟨_, _, rfl⟩ := List.mem_map.mp listed
    simp
  case pending => exact Nat.le_succ_of_le (Nat.le_trans List.countP_le_length (by simp))
  case decls => exact fun key decl listed => (fits _ (mem_of_lookup listed)).1
  case waiting =>
    intro key own listed _ member found
    obtain ⟨entry, present, same⟩ := List.mem_map.mp (mem_of_lookup listed)
    cases same
    exact ⟨(bare entry.1.owner (fits entry present).2 member (List.mem_of_find?_eq_some found)).1,
      (bare entry.1.owner (fits entry present).2 member (List.mem_of_find?_eq_some found)).2.1⟩
  case bodies => exact fun _ _ _ none => by cases none

/-- The phases of a check behind the declarations. -/
theorem phases_spec (fits : ∀ entry ∈ env.decls, entry.2.Fits T entry.1 ∧ base ≤ entry.1.owner)
    (bare : ∀ id, base ≤ id → Bare T id) (plain : Scope.ids unit = []) {start : σ}
    {items : List (Container × ContainerId)} (holds : ∀ item ∈ items, T.Holds base item.2 item.1)
    (resolved : (forIn items PUnit.unit fun (item : Container × ContainerId) (_ : PUnit) => (do
      resolveContainer env unit item.2 item.1
      return .yield PUnit.unit : Check σ (ForInStep PUnit)))
        { symbols := T, progress := env.decls.map fun entry => (entry.1, {}), host := start } =
      .ok u t)
    (imported : checkImports env unit 0 imports t = .ok typedImports v)
    (checked : (items.mapM fun item => checkContainer env unit item.2 item.1) v = .ok typed s') :
    Advances env base (env.decls.length + 1)
        { symbols := T, progress := env.decls.map fun entry => (entry.1, {}), host := start } s' ∧
      typed.map (·.source) = items.map (·.1) ∧ ∀ item ∈ typed, item.Fits base s'.symbols := by
  have owned : Owned env base := fun key decl listed => (fits _ (mem_of_lookup listed)).2
  have visits := checkMember_keeps owned (env.decls.length + 1)
  have one := resolveItems_spec visits (consistent_start fits bare) holds resolved
  have steps := one.trans (checkImports_spec visits one.consistent imported)
  obtain ⟨last, sources, fit⟩ := checkItems_spec visits steps.consistent plain
    (fun item listed => (holds item listed).of_shape steps.shape) checked
  exact ⟨steps.trans last, sources, fit _ (.refl s')⟩

theorem checkProgram_spec {services : Services σ} {table : SymbolTable} {program : Program}
    {unit : CheckedUnit} {start : σ}
    (run : checkProgram services table program { symbols := table.symbols, host := start } =
      .ok unit s') : unit.Fits table program := by
  unfold checkProgram at run
  rw [Check.bind_ok] at run
  obtain ⟨⟨named, decls⟩, t, declared, run⟩ := run
  have plain : Scope.ids [importFrame none program.imports] = [] := by
    simp [Scope.ids, importFrame]
  obtain ⟨T, rfl, declares⟩ := declareItems_ok plain (Nat.le_refl _) declared
  obtain ⟨ids, rfl, count, holds⟩ := declares.named
  have numbers : ([] ++ (program.items.map Container.name).zip ids).map Prod.snd = ids := by
    rw [List.nil_append, List.map_snd_zip (by simp [count])]
  simp only [Check.bind_ok, Check.modify_ok, Check.symbols_ok, Check.pure_ok, numbers] at run
  obtain ⟨_, _, rfl, _, t, resolved, imports, u, imported, typed, v, checked, _, _, ⟨rfl, rfl⟩,
    rfl, rfl⟩ := run
  obtain ⟨steps, sources, fits⟩ := phases_spec declares.fits declares.new plain holds resolved
    imported checked
  have finished : ∀ key : MemberKey, key.owner < table.symbols.containers.size →
      T.member? key = table.symbols.member? key := by
    intro key old
    unfold Symbols.member?
    rw [declares.adds.others key.owner old (by simp)]
  constructor
  case items => exact fits
  case sources => exact sources.trans (List.map_fst_zip (by simp [count]))
  case old =>
    intro id small
    exact (steps.grows.old id small).trans (declares.adds.others id small (by simp))
  case size => exact Nat.le_trans declares.adds.size (Nat.le_of_eq steps.grows.size.symm)
  case names =>
    intro differ id
    have shape := Symbols.get_eq_of_shape steps.shape id
    have same : (v.symbols.get id).members.map (·.name) = (T.get id).members.map (·.name) := by
      have names := congrArg (List.map MemberSymbol.name) (ContainerSymbol.members_eq_of_shape shape)
      rw [List.map_map, List.map_map] at names
      exact names
    rw [same]
    exact declares.names differ id
  case modules =>
    intro free id outside
    exact (declares.modules free id outside).of_shape steps.shape
  case stored =>
    intro id outside isClass member listed
    rw [Symbols.isClass_of_shape steps.shape] at isClass
    have shapes := ContainerSymbol.members_eq_of_shape (Symbols.get_eq_of_shape steps.shape id)
    have present : member.shape ∈ (T.get id).members.map (·.shape) := by
      rw [← shapes]
      exact List.mem_map_of_mem listed
    obtain ⟨before, declared, shaped⟩ := List.mem_map.mp present
    have room := (declares.new id outside before declared).2.2.1 isClass
    unfold MemberSymbol.Stored at room ⊢
    rw [← MemberSymbol.kind_eq_of_shape shaped, ← MemberSymbol.slot_eq_of_shape shaped,
      ← MemberSymbol.flagSlot_eq_of_shape shaped]
    exact room
  case titled =>
    intro id outside member listed
    have shapes := ContainerSymbol.members_eq_of_shape (Symbols.get_eq_of_shape steps.shape id)
    have present : member.shape ∈ (T.get id).members.map (·.shape) := by
      rw [← shapes]
      exact List.mem_map_of_mem listed
    obtain ⟨before, declared, shaped⟩ := List.mem_map.mp present
    have own := (declares.new id outside before declared).2.2.2.1
    unfold MemberSymbol.Titled at own ⊢
    rw [← MemberSymbol.kind_eq_of_shape shaped, ← MemberSymbol.symbol_eq_of_shape shaped,
      ← MemberSymbol.name_eq_of_shape shaped]
    exact own
  case worded =>
    intro worded
    apply steps.grows.worded
    intro key member found kind
    by_cases old : key.owner < table.symbols.containers.size
    · exact worded key member (finished key old ▸ found) kind
    · have listed : member ∈ (T.get key.owner).members := List.mem_of_find?_eq_some found
      exact .inl (declares.new key.owner (Nat.le_of_not_lt old) member listed).2.1
  case valued =>
    intro valued
    apply steps.grows.valued
    intro key member found
    by_cases old : key.owner < table.symbols.containers.size
    · exact valued key member (finished key old ▸ found)
    · have listed : member ∈ (T.get key.owner).members := List.mem_of_find?_eq_some found
      have bare := declares.new key.owner (Nat.le_of_not_lt old) member listed
      intro id
      simp [bare.2.2.2.2]

end Typing

/-- What the check of a unit accepts is well-typed. -/
theorem typecheck_fits {services : Services σ} {host host' : σ}
    (accepted : typecheck services table host program = (.ok unit, host')) :
    unit.Fits table program := by
  rw [typecheck_eq] at accepted
  cases ran : (Typing.checkProgram services table program).run { symbols := table.symbols, host } with
  | error error s => simp [ran] at accepted
  | ok checked s =>
    simp only [ran, Prod.mk.injEq, Except.ok.injEq] at accepted
    obtain ⟨rfl, -⟩ := accepted
    exact Typing.checkProgram_spec ran

end ScriptShell
