import ScriptShell.Proofs.Typing.Fuel

/-! What a check leaves behind, whether the unit is accepted or refused. A check asks the host for the values of
inline members and for foreign functions, and leaves it alone otherwise: what holds between the host before and
after each question holds between the host before and after the check. And it writes to no containers but
those of the unit, which it declares itself. -/
namespace ScriptShell

variable {σ : Type} {R : σ → σ → Prop}

/-- What every question to the host does to it. -/
structure Services.Within (services : Services σ) (R : σ → σ → Prop) : Prop where
  refl : ∀ host, R host host
  trans : ∀ {first second third}, R first second → R second third → R first third
  evaluate : ∀ ask, services.evaluate = some ask → ∀ symbols init host, R host (ask symbols init host).2
  visible : ∀ ask, services.visible = some ask → ∀ symbol host, R host (ask symbol host).2

theorem Services.Within.stable {services : Services σ} (within : services.Within R) (host : σ) :
    services.Stable (0 ≤ ·) fun s => R host s.host where
  symbols kept _ _ := kept
  nested _ _ := Nat.zero_le _
  mark kept _ := kept
  path _ _ kept := kept
  body kept := kept
  fresh kept := kept
  evaluate ask asked symbols init s kept := within.trans kept (within.evaluate ask asked symbols init s.host)
  visible ask asked symbol s kept := within.trans kept (within.visible ask asked symbol s.host)

/-- What a container that is not there yet may hold: nothing that is nested in it is from before. -/
def MemberSymbol.NestsFrom (base : Nat) (member : MemberSymbol) : Prop :=
  ∀ nested, member.nested = some nested → base ≤ nested

/-- A state that declarations lead to: the host is the same, and so are the containers whose number is below
the given one; members are added that hold none of these. -/
structure Checking.Declares (base : Nat) (s t : Checking σ) : Prop where
  host : t.host = s.host
  size : s.symbols.containers.size ≤ t.symbols.containers.size
  old : ∀ id < base, t.symbols.get id = s.symbols.get id
  members : ∀ id, ∀ member ∈ (t.symbols.get id).members,
    member ∈ (s.symbols.get id).members ∨ member.NestsFrom base

theorem Checking.Declares.modify {base : Nat} {id : ContainerId} (s : Checking σ) (new : base ≤ id)
    {f : ContainerSymbol → ContainerSymbol}
    (adds : ∀ container, ∀ member ∈ (f container).members, member ∈ container.members ∨ member.NestsFrom base) :
    s.Declares base { s with symbols := s.symbols.modify id f } where
  host := rfl
  size := Nat.le_of_eq (s.symbols.size_modify id f).symm
  old other earlier := Symbols.get_modify_other (Nat.ne_of_gt (Nat.lt_of_lt_of_le earlier new)) f
  members other member listed := by
    by_cases same : id = other
    · subst same
      by_cases inside : id < s.symbols.containers.size
      · rw [Symbols.get_modify_self inside] at listed
        exact adds _ member listed
      · rw [Symbols.get_of_size_le (by simpa [Symbols.size_modify] using inside)] at listed
        cases listed
    · rw [Symbols.get_modify_other same] at listed
      exact .inl listed

theorem Checking.Declares.push {base : Nat} {s : Checking σ} (room : base ≤ s.symbols.containers.size)
    {container : ContainerSymbol} (empty : container.members = []) :
    s.Declares base { s with symbols := (s.symbols.push container).2 } where
  host := rfl
  size := by simp [Symbols.push]
  old id earlier := Symbols.get_push_old (Nat.lt_of_lt_of_le earlier room) container
  members id member listed := by
    by_cases old : id < s.symbols.containers.size
    · rw [Symbols.get_push_old old] at listed
      exact .inl listed
    · by_cases new : id = s.symbols.containers.size
      · subst new
        rw [Symbols.get_push_new, empty] at listed
        cases listed
      · have outside : (s.symbols.push container).2.containers.size ≤ id := by
          rw [Symbols.size_push]
          exact Nat.lt_of_le_of_ne (Nat.le_of_not_lt old) (Ne.symm new)
        rw [Symbols.get_of_size_le outside] at listed
        cases listed

/-- An invariant that declarations keep, which start behind the given number of containers. -/
structure Checking.Declarable (base : Nat) (P : Checking σ → Prop) : Prop where
  room : ∀ {s}, P s → base ≤ s.symbols.containers.size
  keeps : ∀ {s t}, P s → s.Declares base t → P t

namespace Typing

open Check

section

variable {base : Nat} {P : Checking σ → Prop} (declarable : Checking.Declarable base P)
  {id : ContainerId} (new : base ≤ id)
include declarable new

theorem keeps_takeSlot : Keeps P (takeSlot id : Check σ Nat) := by
  refine agree_bind agree_symbols fun _ => ?_
  refine agree_bind (agree_modify fun s holds => declarable.keeps holds ?_) fun _ => agree_pure _
  exact .modify s new fun _ _ listed => .inl listed

theorem keeps_addMember (span : Span) {member : MemberSymbol} (nests : member.NestsFrom base) :
    Keeps P (addMember id span member : Check σ Unit) := by
  refine agree_bind agree_symbols fun _ => agree_when (agree_fail _ _) ?_
  refine agree_modify fun s holds => declarable.keeps holds (.modify s new fun container own listed => ?_)
  rcases List.mem_append.mp listed with listed | listed
  · exact .inl listed
  · exact .inr (List.mem_singleton.mp listed ▸ nests)

omit declarable new in
theorem keeps_memberSymbol (id : ContainerId) (name : String) :
    Keeps P (memberSymbol id name : Check σ String) :=
  agree_bind agree_symbols fun _ => agree_pure _

theorem keeps_declareParams (span : Span) (params : List ParamDecl) :
    Keeps P (declareParams id span params : Check σ Unit) := by
  induction params with
  | nil => exact agree_pure _
  | cons param rest ih =>
    refine agree_bind (keeps_takeSlot declarable new) fun slot => ?_
    refine agree_bind (keeps_memberSymbol id _) fun symbol => ?_
    exact agree_bind (keeps_addMember declarable new _ (by rintro _ ⟨⟩)) fun _ => ih

theorem keeps_valSymbol (decl : ValDecl) : Keeps P (valSymbol id decl : Check σ MemberSymbol) := by
  refine agree_bind (keeps_memberSymbol id _) fun symbol => ?_
  refine agree_bind agree_symbols fun symbols => ?_
  dsimp only
  split
  · exact agree_pure _
  · split
    · refine agree_bind (keeps_takeSlot declarable new) fun _ => ?_
      exact agree_bind (keeps_takeSlot declarable new) fun _ => agree_pure _
    · exact agree_pure _
  · split
    · exact agree_bind (keeps_takeSlot declarable new) fun _ => agree_pure _
    · exact agree_pure _

end

/-- A container gets the next number. -/
theorem declareContainer_next {owner : Option ContainerId} {outer : Scope} {artifact : String} {item : Container}
    {s t : Checking σ} {declared : ContainerId × Declared}
    (run : declareContainer owner outer artifact item s = .ok declared t) :
    declared.1 = s.symbols.containers.size := by
  cases item with
  | mk span kind name exported params members =>
    rw [declareContainer] at run
    simp only [Check.bind_ok, Check.symbols_ok, Check.modify_ok, Check.pure_ok] at run
    obtain ⟨_, _, ⟨rfl, rfl⟩, _, _, rfl, _, _, -, _, _, -, rfl, -⟩ := run
    rfl

section

variable {base : Nat} {P : Checking σ → Prop} (declarable : Checking.Declarable base P)
include declarable

set_option linter.unusedSectionVars false in
mutual

theorem keeps_declareContainer (owner : Option ContainerId) (outer : Scope) (artifact : String)
    (item : Container) : Keeps P (declareContainer owner outer artifact item : Check σ _) := by
  cases item with
  | mk span kind name exported params members =>
    rw [declareContainer]
    intro s holds
    have room := declarable.room holds
    have rest : Keeps P (do
        declareParams s.symbols.containers.size span params
        let declared ← declareMembers s.symbols.containers.size
          (containerFrame s.symbols.containers.size members :: outer) artifact members
        return (s.symbols.containers.size, declared) : Check σ _) := by
      refine agree_bind (keeps_declareParams declarable room _ _) fun _ => ?_
      exact agree_bind (keeps_declareMembers room _ _ members) fun _ => agree_pure _
    exact rest _ (declarable.keeps holds (.push room rfl))

theorem keeps_declareMembers {id : ContainerId} (new : base ≤ id) (scope : Scope) (artifact : String)
    (members : List Member) : Keeps P (declareMembers id scope artifact members : Check σ _) := by
  cases members with
  | nil =>
    rw [declareMembers]
    exact agree_pure _
  | cons first rest =>
    have others := keeps_declareMembers new scope artifact rest
    cases first with
    | val decl =>
      rw [declareMembers]
      refine agree_bindOk (keeps_valSymbol declarable new decl) fun s member t _ run => ?_
      obtain ⟨_, -, -, -, plain, -⟩ := valSymbol_ok run
      refine agree_bind (keeps_addMember declarable new _ fun _ nested => ?_) fun _ => ?_
      · rw [plain] at nested
        cases nested
      · exact agree_bind others fun _ => agree_pure _
    | func decl =>
      rw [declareMembers]
      refine agree_bind (keeps_memberSymbol id _) fun symbol => ?_
      refine agree_bind (keeps_addMember declarable new _ (by rintro _ ⟨⟩)) fun _ => ?_
      exact agree_bind others fun _ => agree_pure _
    | foreign decl =>
      rw [declareMembers]
      refine agree_bind (keeps_addMember declarable new _ (by rintro _ ⟨⟩)) fun _ => ?_
      exact agree_bind others fun _ => agree_pure _
    | container decl =>
      rw [declareMembers]
      refine agree_bindOk (keeps_declareContainer _ _ _ decl) fun s nested t holds run => ?_
      have next := declareContainer_next run
      refine agree_bind (keeps_addMember declarable new _ ?_) fun _ => ?_
      · rintro _ ⟨⟩
        rw [next]
        exact declarable.room holds
      · exact agree_bind others fun _ => agree_pure _
    | imports decl =>
      rw [declareMembers]
      exact others
    | expr span value =>
      rw [declareMembers]
      exact others

end

theorem keeps_declareItems (unit : Scope) (items : List (String × ContainerId)) (rest : List Container) :
    Keeps P (declareItems unit items rest : Check σ _) := by
  induction rest generalizing items with
  | nil => exact agree_pure _
  | cons item rest ih =>
    refine agree_when (agree_fail _ _) ?_
    refine agree_bind (keeps_declareContainer declarable _ _ _ _) fun declared => ?_
    exact agree_bind (ih _) fun _ => agree_pure _

end

variable {services : Services σ} {base : Nat} {P : Checking σ → Prop}

/-- What declarations keep, and every single step behind them, the check of a unit keeps. -/
theorem keeps_checkProgram (stable : services.Stable (base ≤ ·) P) (declarable : Checking.Declarable base P)
    (table : SymbolTable) (program : Program) : Keeps P (checkProgram services table program) := by
  refine agree_bindOk (keeps_declareItems declarable _ _ _) fun s declared t holds run => ?_
  have plain : Scope.ids [importFrame none program.imports] = [] := by simp [Scope.ids, importFrame]
  obtain ⟨T, -, declares⟩ := declareItems_ok plain (declarable.room holds) run
  obtain ⟨ids, named, -, within⟩ := declares.named
  refine agree_bind (agree_modify fun s holds => declarable.keeps holds ?_) fun _ s holds => ⟨rfl, ?_⟩
  · exact ⟨rfl, Nat.le_refl _, fun _ _ => rfl, fun _ _ listed => .inl listed⟩
  · refine (agree_checkDeclared (keeps_checkMember stable rfl ?_ _) stable program ?_ s holds).2
    · exact fun key decl listed => (declares.fits _ (mem_of_lookup listed)).2
    · intro item listed
      rw [named, List.nil_append, List.zip_map_left] at listed
      obtain ⟨⟨⟨_, _, _, _, _, _⟩, id⟩, there, rfl⟩ := List.mem_map.mp listed
      have holds := within _ there
      simp only [Symbols.Holds] at holds
      exact holds.1

end Typing

/-- The containers of finished units are as they were, and no container behind them has one of them nested in
it. -/
structure Checking.Spares (finished : Symbols) (s : Checking σ) : Prop where
  room : finished.containers.size ≤ s.symbols.containers.size
  old : ∀ id < finished.containers.size, s.symbols.get id = finished.get id
  nests : ∀ id, finished.containers.size ≤ id → ∀ member ∈ (s.symbols.get id).members,
    member.NestsFrom finished.containers.size

theorem Checking.spares_declarable (finished : Symbols) :
    Checking.Declarable finished.containers.size (Checking.Spares (σ := σ) finished) where
  room spares := spares.room
  keeps spares declares :=
    ⟨Nat.le_trans spares.room declares.size, fun id old => (declares.old id old).trans (spares.old id old),
      fun id new member listed => (declares.members id member listed).elim (spares.nests id new member) (·)⟩

/-- Single steps write to no container but those of the unit. -/
theorem Services.stable_spares (services : Services σ) (finished : Symbols) :
    services.Stable (finished.containers.size ≤ ·) (Checking.Spares finished) where
  symbols spares shape others :=
    { room := Symbols.size_of_shape shape ▸ spares.room
      old := fun id old => (others id (Nat.not_le_of_lt old)).trans (spares.old id old)
      nests := fun id new member listed nested leads => by
        have shapes := ContainerSymbol.members_eq_of_shape (Symbols.get_eq_of_shape shape id)
        obtain ⟨own, there, same⟩ := List.mem_map.mp (shapes ▸ List.mem_map_of_mem (f := MemberSymbol.shape) listed)
        exact spares.nests id new own there nested (MemberSymbol.nested_eq_of_shape same ▸ leads) }
  nested {s id name} spares new := by
    cases found : s.symbols.member? ⟨id, name⟩ with
    | none => exact new
    | some member =>
      cases leads : member.nested with
      | none => simpa [leads] using new
      | some nested =>
        simpa [leads] using spares.nests id new member (List.mem_of_find?_eq_some found) nested leads
  mark spares _ := ⟨spares.room, spares.old, spares.nests⟩
  path _ _ spares := ⟨spares.room, spares.old, spares.nests⟩
  body spares := ⟨spares.room, spares.old, spares.nests⟩
  fresh spares := ⟨spares.room, spares.old, spares.nests⟩
  evaluate _ _ _ _ _ spares := ⟨spares.room, spares.old, spares.nests⟩
  visible _ _ _ _ spares := ⟨spares.room, spares.old, spares.nests⟩

/-- What a check leaves behind is the state that its steps lead to, whether the unit is accepted or refused. -/
theorem typecheckInPlace_state (services : Services σ) (table : SymbolTable) (host : σ) (program : Program) :
    let after := Check.stateAfter (Typing.checkProgram services table program { symbols := table.symbols, host })
    (typecheckInPlace services table host program).2 = (after.symbols, after.host) := by
  unfold typecheckInPlace
  dsimp only [EStateM.run]
  cases Typing.checkProgram services table program { symbols := table.symbols, host } <;> rfl

/-- The host behind the check of a unit, whether it is accepted or refused. -/
theorem typecheckInPlace_host {services : Services σ} (within : services.Within R) (table : SymbolTable)
    (host : σ) (program : Program) : R host (typecheckInPlace services table host program).2.2 := by
  have declarable : Checking.Declarable 0 fun s : Checking σ => R host s.host :=
    ⟨fun _ => Nat.zero_le _, fun kept declares => declares.host ▸ kept⟩
  rw [typecheckInPlace_state]
  exact (Typing.keeps_checkProgram (within.stable host) declarable table program
    { symbols := table.symbols, host } (within.refl host)).2

/-- A check writes to no container but those of its unit, whether the unit is accepted or refused. -/
theorem typecheckInPlace_spares (services : Services σ) (table : SymbolTable) (host : σ) (program : Program) :
    let symbols := (typecheckInPlace services table host program).2.1
    table.symbols.containers.size ≤ symbols.containers.size ∧
      ∀ id < table.symbols.containers.size, symbols.get id = table.symbols.get id := by
  have none (id : ContainerId) (outside : table.symbols.containers.size ≤ id) (member : MemberSymbol)
      (listed : member ∈ (table.symbols.get id).members) : member.NestsFrom table.symbols.containers.size := by
    rw [Symbols.get_of_size_le outside] at listed
    cases listed
  obtain ⟨-, spares⟩ := Typing.keeps_checkProgram (services.stable_spares table.symbols)
    (Checking.spares_declarable table.symbols) table program { symbols := table.symbols, host }
    ⟨Nat.le_refl _, fun _ _ => rfl, none⟩
  rw [typecheckInPlace_state]
  exact ⟨spares.room, spares.old⟩

namespace SymbolTable

/-- A table whose containers were spared is left as it was. -/
theorem leave_eq {table : SymbolTable} {symbols : Symbols}
    (room : table.symbols.containers.size ≤ symbols.containers.size)
    (spared : ∀ id < table.symbols.containers.size, symbols.get id = table.symbols.get id) :
    table.leave symbols = table := by
  have containers : symbols.containers.extract 0 table.symbols.containers.size = table.symbols.containers := by
    refine Array.ext (by rw [Array.size_extract, Nat.min_eq_left room, Nat.sub_zero]) fun id inside own => ?_
    have same := spared id own
    simp only [Symbols.get, Array.getD_eq_getD_getElem?] at same
    rw [Array.getElem?_eq_getElem own, Array.getElem?_eq_getElem (Nat.lt_of_lt_of_le own room)] at same
    simpa using same
  unfold leave
  rw [containers]

/-- A unit that comes to nothing leaves the symbols of finished units as they were. -/
theorem leave_typecheck {σ : Type} (services : Services σ) (table : SymbolTable) (host : σ) (program : Program) :
    table.leave (typecheckInPlace services table host program).2.1 = table := by
  obtain ⟨room, spared⟩ := typecheckInPlace_spares services table host program
  exact leave_eq room spared

end SymbolTable

end ScriptShell
