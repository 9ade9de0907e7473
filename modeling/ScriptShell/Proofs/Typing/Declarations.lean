import ScriptShell.Proofs.Typing.Judgement
import ScriptShell.Proofs.Typing.Success

/-! What the declaration of a unit leaves. Containers get the next free numbers, so those of finished
units stay as they are; every member that has a body is listed with the scope of its container, and
its symbol can be found under its name. Later declarations only add to this. -/
namespace ScriptShell

/-- The kind that the symbol of a value has. -/
def ValMode.kind : ValMode → MemberKind
  | .strict => .val
  | .lazy => .lazyVal
  | .inline => .inlineVal

/-- Members have values, or their type is not known; modules and classes are named by paths. -/
def Ty.OfMember (type : Ty) : Prop := ∀ id, type ≠ .space id

theorem Ty.ofMember_of_isValue {type : Ty} (isValue : type.isValue = true) : type.OfMember := by
  rintro id rfl
  cases isValue

/-- A value that the objects of a class store has a slot, a lazy one also a flag. -/
def MemberSymbol.Stored (member : MemberSymbol) : Prop :=
  (member.kind = .val → member.slot.isSome = true) ∧
    (member.kind = .lazyVal → member.slot.isSome = true ∧ member.flagSlot.isSome = true)

/-- The code of a member goes by its path, or by no name; only foreign functions go by their own. -/
def MemberSymbol.Titled (member : MemberSymbol) : Prop :=
  member.kind ≠ .foreign → member.symbol = "" ∨ ∃ owner, member.symbol = owner ++ "." ++ member.name

/-- A member as it is declared. -/
def MemberSymbol.Bare (isClass : Bool) (member : MemberSymbol) : Prop :=
  member.params = [] ∧ member.constant = 0 ∧ (isClass = true → member.Stored) ∧ member.Titled ∧
    member.type = .error

/-- A symbol is the one of a member with a body. -/
def Member.Declares (container : ContainerSymbol) (name : String) (member : MemberSymbol) :
    Member → Prop
  | .val decl => decl.name = name ∧ member.kind = decl.mode.kind ∧
      member.symbol = container.qualified ++ "." ++ name
  | .func decl => decl.name = name ∧ member.kind = .func ∧
      member.symbol = container.qualified ++ "." ++ name
  | .foreign decl => decl.name = name ∧ member.kind = .foreign ∧ member.symbol = name
  | _ => False

/-- The scope of the members of a container: the container comes first, and there are no locals. -/
structure Scope.Inside (id : ContainerId) (scope : Scope) : Prop where
  first : ∃ frame outer, scope = frame :: outer ∧ frame.container = some id
  plain : scope.ids = []

/-- The symbol of a member with a body is found under its key. -/
def Symbols.Has (S : Symbols) (key : MemberKey) (decl : Member) : Prop :=
  ∃ member, S.member? key = some member ∧ member.nested = none ∧ member.isParam = false ∧
    decl.Declares (S.get key.owner) key.name member

/-- A member that waits for its check. -/
structure PendingDecl.Fits (S : Symbols) (key : MemberKey) (decl : PendingDecl) : Prop where
  inside : decl.scope.Inside key.owner
  symbol : S.Has key decl.member

namespace Symbols

variable {S T U : Symbols} {own : Option ContainerId} {id : ContainerId} {key : MemberKey}

/-- More was declared: the container `own` has got further members, and there are new containers. -/
structure Adds (own : Option ContainerId) (S T : Symbols) : Prop where
  size : S.containers.size ≤ T.containers.size
  others : ∀ id < S.containers.size, some id ≠ own → T.get id = S.get id
  isClass : ∀ id < S.containers.size, (T.get id).isClass = (S.get id).isClass
  qualified : ∀ id < S.containers.size, (T.get id).qualified = (S.get id).qualified
  members : ∀ id < S.containers.size, (S.get id).members <+: (T.get id).members

/-- Inline members with a constant are numbers. -/
def Worded (S : Symbols) : Prop :=
  ∀ key member, S.member? key = some member → member.kind = .inlineVal →
    member.constant = 0 ∨ member.type = .int

/-- No member is what only a path stands for. -/
def Valued (S : Symbols) : Prop :=
  ∀ key member, S.member? key = some member → member.type.OfMember

/-- The names of the members of each container differ. -/
def NamesDiffer (S : Symbols) : Prop := ∀ id, ((S.get id).members.map (·.name)).Nodup

theorem Adds.refl (S : Symbols) : S.Adds own S :=
  ⟨Nat.le_refl _, fun _ _ _ => rfl, fun _ _ => rfl, fun _ _ => rfl, fun _ _ => List.prefix_rfl⟩

theorem Adds.trans (first : S.Adds own T) (second : T.Adds own U) : S.Adds own U where
  size := Nat.le_trans first.size second.size
  others id small other := by
    rw [second.others id (Nat.lt_of_lt_of_le small first.size) other, first.others id small other]
  isClass id small := by
    rw [second.isClass id (Nat.lt_of_lt_of_le small first.size), first.isClass id small]
  qualified id small := by
    rw [second.qualified id (Nat.lt_of_lt_of_le small first.size), first.qualified id small]
  members id small :=
    (first.members id small).trans (second.members id (Nat.lt_of_lt_of_le small first.size))

/-- What a new container gets is no change of those before it. -/
theorem Adds.hide (first : S.Adds none T) (second : T.Adds (some id) U)
    (new : S.containers.size ≤ id) : S.Adds none U where
  size := Nat.le_trans first.size second.size
  others other small _ := by
    have differs : some other ≠ some id := by simp; omega
    rw [second.others other (Nat.lt_of_lt_of_le small first.size) differs,
      first.others other small (by simp)]
  isClass other small := by
    rw [second.isClass other (Nat.lt_of_lt_of_le small first.size), first.isClass other small]
  qualified other small := by
    rw [second.qualified other (Nat.lt_of_lt_of_le small first.size), first.qualified other small]
  members other small :=
    (first.members other small).trans (second.members other (Nat.lt_of_lt_of_le small first.size))

theorem Adds.weaken (adds : S.Adds none T) : S.Adds own T :=
  { adds with others := fun id small _ => adds.others id small (by simp) }

theorem get_of_size_le (outside : S.containers.size ≤ id) : S.get id = {} := by
  unfold get
  rw [Array.getD_eq_getD_getElem?, Array.getElem?_eq_none outside]
  rfl

theorem inside_of_member? (found : S.member? key = some member) :
    key.owner < S.containers.size := by
  by_cases inside : key.owner < S.containers.size
  · exact inside
  · rw [member?, get_of_size_le (Nat.le_of_not_lt inside)] at found
    simp [ContainerSymbol.find?] at found

theorem Adds.member? (adds : S.Adds own T) (found : S.member? key = some member) :
    T.member? key = some member := by
  obtain ⟨more, longer⟩ := adds.members key.owner (inside_of_member? found)
  unfold Symbols.member? ContainerSymbol.find? at found ⊢
  rw [← longer, List.find?_append, found]
  rfl

theorem get_modify_self (inside : id < S.containers.size) (f : ContainerSymbol → ContainerSymbol) :
    (S.modify id f).get id = f (S.get id) := by
  unfold get modify
  rw [Array.getD_eq_getD_getElem?, Array.getElem?_modify, Array.getD_eq_getD_getElem?]
  simp [inside]

theorem get_modify_other (differs : id ≠ other) (f : ContainerSymbol → ContainerSymbol) :
    (S.modify id f).get other = S.get other := by
  unfold get modify
  simp [Array.getD_eq_getD_getElem?, Array.getElem?_modify, differs]

theorem size_modify (S : Symbols) (id : ContainerId) (f : ContainerSymbol → ContainerSymbol) :
    (S.modify id f).containers.size = S.containers.size := by
  simp [modify]

theorem members_modify {f : ContainerSymbol → ContainerSymbol}
    (keeps : ∀ container, (f container).members = container.members) (other : ContainerId) :
    ((S.modify id f).get other).members = (S.get other).members := by
  by_cases same : id = other
  · subst same
    by_cases inside : id < S.containers.size
    · rw [get_modify_self inside, keeps]
    · have outside := Nat.le_of_not_lt inside
      rw [get_of_size_le outside, get_of_size_le (size_modify S id f ▸ outside)]
  · rw [get_modify_other same]

theorem get_push_old (small : id < S.containers.size) (container : ContainerSymbol) :
    (S.push container).2.get id = S.get id := by
  unfold get push
  simp [Array.getD_eq_getD_getElem?, Array.getElem?_push, Nat.ne_of_lt small]

theorem get_push_new (S : Symbols) (container : ContainerSymbol) :
    (S.push container).2.get S.containers.size = container := by
  unfold get push
  simp [Array.getD_eq_getD_getElem?]

theorem size_push (S : Symbols) (container : ContainerSymbol) :
    (S.push container).2.containers.size = S.containers.size + 1 := by
  simp [push]

theorem names_push (differ : S.NamesDiffer) (empty : container.members = []) :
    (S.push container).2.NamesDiffer := by
  intro id
  by_cases small : id < S.containers.size
  · rw [get_push_old small]
    exact differ id
  · by_cases new : id = S.containers.size
    · rw [new, get_push_new, empty]
      exact List.nodup_nil
    · have outside := Nat.lt_of_le_of_ne (Nat.le_of_not_lt small) (Ne.symm new)
      rw [get_of_size_le (by rw [size_push]; exact outside)]
      exact List.nodup_nil

/-- A change of a container that leaves its members in front. -/
theorem adds_modify {f : ContainerSymbol → ContainerSymbol}
    (isClass : ∀ container, (f container).isClass = container.isClass)
    (qualified : ∀ container, (f container).qualified = container.qualified)
    (members : ∀ container, container.members <+: (f container).members) :
    S.Adds (some id) (S.modify id f) where
  size := Nat.le_of_eq (size_modify S id f).symm
  others other _ differs := get_modify_other (fun same => differs (congrArg some same.symm)) f
  isClass other small := by
    by_cases same : id = other
    · subst same; rw [get_modify_self small, isClass]
    · rw [get_modify_other same]
  qualified other small := by
    by_cases same : id = other
    · subst same; rw [get_modify_self small, qualified]
    · rw [get_modify_other same]
  members other small := by
    by_cases same : id = other
    · subst same; rw [get_modify_self small]; exact members _
    · exact (get_modify_other same f).symm ▸ List.prefix_rfl

theorem adds_push (S : Symbols) (container : ContainerSymbol) :
    S.Adds none (S.push container).2 where
  size := by rw [size_push]; exact Nat.le_succ _
  others id small _ := get_push_old small container
  isClass id small := by rw [get_push_old small]
  qualified id small := by rw [get_push_old small]
  members id small := (get_push_old small container).symm ▸ List.prefix_rfl

end Symbols

theorem Member.Declares.of_qualified {container other : ContainerSymbol}
    (same : other.qualified = container.qualified) {decl : Member}
    (declares : decl.Declares container name member) : decl.Declares other name member := by
  cases decl <;> simp_all [Member.Declares]

theorem Symbols.Has.adds {S T : Symbols} (has : S.Has key decl) (adds : S.Adds own T) :
    T.Has key decl := by
  obtain ⟨member, found, plain, stored, declares⟩ := has
  have qualified := adds.qualified key.owner (Symbols.inside_of_member? found)
  exact ⟨member, adds.member? found, plain, stored, declares.of_qualified qualified⟩

theorem PendingDecl.Fits.adds (fits : PendingDecl.Fits S key decl) (adds : S.Adds own T) :
    PendingDecl.Fits T key decl :=
  ⟨fits.inside, fits.symbol.adds adds⟩

theorem Symbols.Has.of_shape {S T : Symbols} (has : S.Has key decl) (same : T.shape = S.shape) :
    T.Has key decl := by
  obtain ⟨member, found, plain, stored, declares⟩ := has
  obtain ⟨later, present, shaped⟩ := Symbols.member?_of_shape same found
  have qualified := ContainerSymbol.qualified_eq_of_shape (Symbols.get_eq_of_shape same key.owner)
  refine ⟨later, present, (MemberSymbol.nested_eq_of_shape shaped).trans plain,
    (MemberSymbol.isParam_eq_of_shape shaped).trans stored, ?_⟩
  have kind := MemberSymbol.kind_eq_of_shape shaped
  have symbol := MemberSymbol.symbol_eq_of_shape shaped
  cases decl <;> simp_all [Member.Declares]

theorem PendingDecl.Fits.of_shape (fits : PendingDecl.Fits S key decl) (same : T.shape = S.shape) :
    PendingDecl.Fits T key decl :=
  ⟨fits.inside, fits.symbol.of_shape same⟩

mutual

/-- No class is declared. Only classes have parameters. -/
def Container.classFree : Container → Bool
  | .mk _ kind _ _ params members =>
    kind = .moduleKind && params.isEmpty && Member.classFreeAll members

/-- No class is declared among members. -/
def Member.classFreeAll : List Member → Bool
  | [] => true
  | .container decl :: rest => decl.classFree && Member.classFreeAll rest
  | _ :: rest => Member.classFreeAll rest

end

mutual

/-- The symbols of a container that has a number from `base` on: its parameters are stored members,
and those nested in it can be found. -/
def Symbols.Holds (S : Symbols) (base : Nat) (id : ContainerId) : Container → Prop
  | .mk _ kind _ _ params members =>
    base ≤ id ∧ id < S.containers.size ∧ (S.get id).isClass = decide (kind = .classKind) ∧
      (∀ param ∈ params, ∃ member, S.member? ⟨id, param.name⟩ = some member ∧
        member.isParam = true ∧ member.kind = .val) ∧
      S.HoldsAll base id members

/-- The symbols of members. -/
def Symbols.HoldsAll (S : Symbols) (base : Nat) (id : ContainerId) : List Member → Prop
  | [] => True
  | .container decl :: rest =>
    (∃ member nested, S.member? ⟨id, decl.name⟩ = some member ∧ member.nested = some nested ∧
      S.Holds base nested decl) ∧ S.HoldsAll base id rest
  | .val decl :: rest => S.Has ⟨id, decl.name⟩ (.val decl) ∧ S.HoldsAll base id rest
  | .func decl :: rest => S.Has ⟨id, decl.name⟩ (.func decl) ∧ S.HoldsAll base id rest
  | .foreign decl :: rest => S.Has ⟨id, decl.name⟩ (.foreign decl) ∧ S.HoldsAll base id rest
  | .imports _ :: rest | .expr _ _ :: rest => S.HoldsAll base id rest

end

mutual

theorem Symbols.Holds.adds {S T : Symbols} (adds : S.Adds own T) :
    ∀ {id : ContainerId} {container : Container},
      S.Holds base id container → T.Holds base id container
  | id, .mk _ _ _ _ _ _, holds => by
    simp only [Symbols.Holds] at holds ⊢
    obtain ⟨new, small, isClass, params, members⟩ := holds
    refine ⟨new, Nat.lt_of_lt_of_le small adds.size, (adds.isClass id small).trans isClass, ?_,
      members.adds adds⟩
    intro param listed
    obtain ⟨member, found, stored⟩ := params param listed
    exact ⟨member, adds.member? found, stored⟩

theorem Symbols.HoldsAll.adds {S T : Symbols} (adds : S.Adds own T) :
    ∀ {id : ContainerId} {members : List Member},
      S.HoldsAll base id members → T.HoldsAll base id members
  | _, [], _ => trivial
  | _, .container _ :: _, holds => by
    simp only [Symbols.HoldsAll] at holds ⊢
    obtain ⟨⟨member, nested, found, inner, held⟩, rest⟩ := holds
    exact ⟨⟨member, nested, adds.member? found, inner, held.adds adds⟩, rest.adds adds⟩
  | _, .val _ :: _, holds | _, .func _ :: _, holds | _, .foreign _ :: _, holds => by
    simp only [Symbols.HoldsAll] at holds ⊢
    exact ⟨holds.1.adds adds, holds.2.adds adds⟩
  | _, .imports _ :: _, holds | _, .expr _ _ :: _, holds => by
    simp only [Symbols.HoldsAll] at holds ⊢
    exact holds.adds adds

end

mutual

theorem Symbols.Holds.of_shape {S T : Symbols} (same : T.shape = S.shape) :
    ∀ {id : ContainerId} {container : Container},
      S.Holds base id container → T.Holds base id container
  | id, .mk _ _ _ _ _ _, holds => by
    simp only [Symbols.Holds] at holds ⊢
    obtain ⟨new, small, isClass, params, members⟩ := holds
    refine ⟨new, Symbols.size_of_shape same ▸ small, (Symbols.isClass_of_shape same id).trans isClass, ?_,
      members.of_shape same⟩
    intro param listed
    obtain ⟨member, found, stored⟩ := params param listed
    obtain ⟨later, present, shaped⟩ := Symbols.member?_of_shape same found
    exact ⟨later, present, (MemberSymbol.isParam_eq_of_shape shaped).trans stored.1,
      (MemberSymbol.kind_eq_of_shape shaped).trans stored.2⟩

theorem Symbols.HoldsAll.of_shape {S T : Symbols} (same : T.shape = S.shape) :
    ∀ {id : ContainerId} {members : List Member},
      S.HoldsAll base id members → T.HoldsAll base id members
  | _, [], _ => trivial
  | _, .container _ :: _, holds => by
    simp only [Symbols.HoldsAll] at holds ⊢
    obtain ⟨⟨member, nested, found, inner, held⟩, rest⟩ := holds
    obtain ⟨later, present, shaped⟩ := Symbols.member?_of_shape same found
    exact ⟨⟨later, nested, present, (MemberSymbol.nested_eq_of_shape shaped).trans inner,
      held.of_shape same⟩, rest.of_shape same⟩
  | _, .val _ :: _, holds | _, .func _ :: _, holds | _, .foreign _ :: _, holds => by
    simp only [Symbols.HoldsAll] at holds ⊢
    exact ⟨holds.1.of_shape same, holds.2.of_shape same⟩
  | _, .imports _ :: _, holds | _, .expr _ _ :: _, holds => by
    simp only [Symbols.HoldsAll] at holds ⊢
    exact holds.of_shape same

end

namespace Typing

variable {σ : Type} {s s' : Checking σ} {id : ContainerId}

/-- No member of a container has parameters yet, and those of a class have their slots. -/
def Bare (S : Symbols) (id : ContainerId) : Prop :=
  ∀ member ∈ (S.get id).members, member.Bare (S.get id).isClass

/-- A container is a module, and none of its members is a constructor parameter. -/
def Modular (S : Symbols) (id : ContainerId) : Prop :=
  (S.get id).isClass = false ∧ ∀ member ∈ (S.get id).members, member.isParam = false

theorem modular_of_outside (outside : S.containers.size ≤ id) : Modular S id := by
  unfold Modular
  rw [Symbols.get_of_size_le outside]
  exact ⟨rfl, by simp⟩

theorem Modular.of_shape {T : Symbols} (modular : Modular S id) (same : T.shape = S.shape) :
    Modular T id := by
  refine ⟨(Symbols.isClass_of_shape same id).trans modular.1, ?_⟩
  intro member listed
  have shapes := ContainerSymbol.members_eq_of_shape (Symbols.get_eq_of_shape same id)
  have present : member.shape ∈ (S.get id).members.map (·.shape) := by
    rw [← shapes]
    exact List.mem_map_of_mem listed
  obtain ⟨before, declared, shaped⟩ := List.mem_map.mp present
  rw [← MemberSymbol.isParam_eq_of_shape shaped]
  exact modular.2 before declared

/-- A slot was taken: no member and no container was added. -/
structure Slotted (id : ContainerId) (S T : Symbols) : Prop where
  adds : S.Adds (some id) T
  size : T.containers.size = S.containers.size
  members : ∀ other, (T.get other).members = (S.get other).members

theorem Slotted.refl (S : Symbols) : Slotted id S S := ⟨.refl S, rfl, fun _ => rfl⟩

theorem Slotted.trans (first : Slotted id S T) (second : Slotted id T U) : Slotted id S U :=
  ⟨first.adds.trans second.adds, second.size.trans first.size,
    fun other => (second.members other).trans (first.members other)⟩

theorem takeSlot_ok (run : (takeSlot id : Check σ Nat) s = .ok slot s') :
    ∃ T, s' = { s with symbols := T } ∧ Slotted id s.symbols T := by
  simp only [takeSlot, Check.bind_ok, Check.symbols_ok, Check.modify_ok, Check.pure_ok] at run
  obtain ⟨_, _, ⟨rfl, rfl⟩, _, _, rfl, rfl, rfl⟩ := run
  exact ⟨_, rfl, Symbols.adds_modify (fun _ => rfl) (fun _ => rfl) (fun _ => List.prefix_rfl),
    Symbols.size_modify _ _ _, Symbols.members_modify (fun _ => rfl)⟩

/-- A member was put behind those of a container. -/
structure Added (id : ContainerId) (member : MemberSymbol) (S T : Symbols) : Prop where
  adds : S.Adds (some id) T
  size : T.containers.size = S.containers.size
  found : T.member? ⟨id, member.name⟩ = some member
  members : (T.get id).members = (S.get id).members ++ [member]
  names : S.NamesDiffer → T.NamesDiffer

theorem addMember_ok (inside : id < s.symbols.containers.size)
    (run : (addMember id span member : Check σ Unit) s = .ok u s') :
    ∃ T, s' = { s with symbols := T } ∧ Added id member s.symbols T := by
  simp only [addMember, Check.bind_ok, Check.symbols_ok, Check.guard_ok, Check.modify_ok] at run
  obtain ⟨_, _, ⟨rfl, rfl⟩, absent, rfl⟩ := run
  have absent : (s.symbols.get id).find? member.name = none := by simpa using absent
  have members := congrArg ContainerSymbol.members (Symbols.get_modify_self inside
    fun container => { container with members := container.members ++ [member] })
  refine ⟨_, rfl, Symbols.adds_modify (fun _ => rfl) (fun _ => rfl)
    (fun _ => List.prefix_append _ _), Symbols.size_modify _ _ _, ?_, members, ?_⟩
  · unfold ContainerSymbol.find? at absent
    unfold Symbols.member? ContainerSymbol.find?
    rw [members, List.find?_append, absent]
    simp
  · intro differ other
    by_cases same : id = other
    · subst same
      rw [members, List.map_append, List.nodup_append]
      refine ⟨differ id, by simp, ?_⟩
      intro name listed fresh added equal
      simp only [List.map_cons, List.map_nil, List.mem_singleton] at added
      obtain ⟨earlier, present, rfl⟩ := List.mem_map.mp listed
      have never := List.find?_eq_none.mp absent earlier present
      simp [equal, added] at never
    · rw [Symbols.get_modify_other same]
      exact differ other

theorem memberSymbol_ok (run : (memberSymbol id name : Check σ String) s = .ok symbol s') :
    s' = s ∧ symbol = (s.symbols.get id).qualified ++ "." ++ name := by
  simp only [memberSymbol, Check.bind_ok, Check.symbols_ok, Check.pure_ok] at run
  obtain ⟨_, _, ⟨rfl, rfl⟩, rfl, rfl⟩ := run
  exact ⟨rfl, rfl⟩

theorem valSymbol_ok (run : (valSymbol id decl : Check σ MemberSymbol) s = .ok member s') :
    ∃ T, s' = { s with symbols := T } ∧ Slotted id s.symbols T ∧ member.name = decl.name ∧
      member.nested = none ∧ member.isParam = false ∧ member.Bare (s.symbols.get id).isClass ∧
      (Member.val decl).Declares (s.symbols.get id) decl.name member := by
  simp only [valSymbol, Check.bind_ok, Check.symbols_ok] at run
  obtain ⟨symbol, _, named, _, _, ⟨rfl, rfl⟩, run⟩ := run
  obtain ⟨rfl, rfl⟩ := memberSymbol_ok named
  cases mode : decl.mode with
  | inline =>
    simp only [mode, Check.pure_ok] at run
    obtain ⟨rfl, rfl⟩ := run
    exact ⟨_, rfl, .refl _, rfl, rfl, rfl, ⟨rfl, rfl, fun _ => by simp [MemberSymbol.Stored],
        fun _ => .inr ⟨_, rfl⟩, rfl⟩,
      by simp [Member.Declares, mode, ValMode.kind]⟩
  | lazy =>
    simp only [mode] at run
    split at run
    next =>
      simp only [Check.bind_ok, Check.pure_ok] at run
      obtain ⟨_, _, first, _, _, second, rfl, rfl⟩ := run
      obtain ⟨_, rfl, one⟩ := takeSlot_ok first
      obtain ⟨_, rfl, two⟩ := takeSlot_ok second
      exact ⟨_, rfl, one.trans two, rfl, rfl, rfl, ⟨rfl, rfl, fun _ => by simp [MemberSymbol.Stored],
        fun _ => .inr ⟨_, rfl⟩, rfl⟩,
        by simp [Member.Declares, mode, ValMode.kind]⟩
    next stored =>
      obtain ⟨rfl, rfl⟩ := Check.pure_ok.mp run
      exact ⟨_, rfl, .refl _, rfl, rfl, rfl, ⟨rfl, rfl, fun isClass => absurd isClass stored,
        fun _ => .inr ⟨_, rfl⟩, rfl⟩,
        by simp [Member.Declares, mode, ValMode.kind]⟩
  | strict =>
    simp only [mode] at run
    split at run
    next =>
      simp only [Check.bind_ok, Check.pure_ok] at run
      obtain ⟨_, _, first, rfl, rfl⟩ := run
      obtain ⟨_, rfl, one⟩ := takeSlot_ok first
      exact ⟨_, rfl, one, rfl, rfl, rfl, ⟨rfl, rfl, fun _ => by simp [MemberSymbol.Stored],
        fun _ => .inr ⟨_, rfl⟩, rfl⟩,
        by simp [Member.Declares, mode, ValMode.kind]⟩
    next stored =>
      obtain ⟨rfl, rfl⟩ := Check.pure_ok.mp run
      exact ⟨_, rfl, .refl _, rfl, rfl, rfl, ⟨rfl, rfl, fun isClass => absurd isClass stored,
        fun _ => .inr ⟨_, rfl⟩, rfl⟩,
        by simp [Member.Declares, mode, ValMode.kind]⟩

/-- Constructor parameters were declared. -/
structure ParamsDeclared (id : ContainerId) (params : List ParamDecl) (S T : Symbols) : Prop where
  adds : S.Adds (some id) T
  size : T.containers.size = S.containers.size
  found : ∀ param ∈ params, ∃ member, T.member? ⟨id, param.name⟩ = some member ∧
    member.isParam = true ∧ member.kind = .val
  empty : params = [] → T = S
  bare : Bare S id → Bare T id
  names : S.NamesDiffer → T.NamesDiffer

theorem names_of_slotted (slotted : Slotted id S T) (differ : S.NamesDiffer) : T.NamesDiffer := by
  intro other
  rw [slotted.members]
  exact differ other

theorem bare_of_added (slotted : Slotted id S V) (added : Added id member V T)
    (small : id < S.containers.size) (plain : member.Bare (S.get id).isClass) (bare : Bare S id) :
    Bare T id := by
  intro own listed
  rw [(slotted.adds.trans added.adds).isClass id small]
  rw [added.members, slotted.members, List.mem_append, List.mem_singleton] at listed
  rcases listed with earlier | rfl
  · exact bare own earlier
  · exact plain

theorem modular_of_added (slotted : Slotted id S V) (added : Added id member V T)
    (small : id < S.containers.size) (plain : member.isParam = false) (modular : Modular S id) :
    Modular T id := by
  refine ⟨((slotted.adds.trans added.adds).isClass id small).trans modular.1, ?_⟩
  intro own listed
  rw [added.members, slotted.members, List.mem_append, List.mem_singleton] at listed
  rcases listed with earlier | rfl
  · exact modular.2 own earlier
  · exact plain

theorem declareParams_ok (inside : id < s.symbols.containers.size)
    (run : (declareParams id span params : Check σ Unit) s = .ok u s') :
    ∃ T, s' = { s with symbols := T } ∧ ParamsDeclared id params s.symbols T := by
  induction params generalizing s with
  | nil =>
    obtain ⟨-, rfl⟩ := Check.pure_ok.mp run
    exact ⟨_, rfl, .refl _, rfl, by simp, fun _ => rfl, fun bare => bare, fun differ => differ⟩
  | cons param rest ih =>
    simp only [declareParams, Check.bind_ok] at run
    obtain ⟨slot, _, took, symbol, _, named, _, _, added, run⟩ := run
    obtain ⟨_, rfl, slotted⟩ := takeSlot_ok took
    obtain ⟨rfl, rfl⟩ := memberSymbol_ok named
    obtain ⟨_, rfl, one⟩ := addMember_ok (by rw [slotted.size]; exact inside) added
    obtain ⟨T, rfl, others⟩ := ih (by rw [one.size, slotted.size]; exact inside) run
    have first := slotted.adds.trans one.adds
    refine ⟨T, rfl, first.trans others.adds, ?_, ?_, by simp, ?_, ?_⟩
    · rw [others.size, one.size, slotted.size]
    · intro own listed
      rcases List.mem_cons.mp listed with rfl | listed
      · exact ⟨_, others.adds.member? one.found, rfl, rfl⟩
      · exact others.found own listed
    · intro bare
      refine others.bare (bare_of_added slotted one inside ⟨rfl, rfl, fun _ => ?_, fun _ => .inr ⟨_, rfl⟩, rfl⟩ bare)
      simp [MemberSymbol.Stored]
    · exact fun differ => others.names (one.names (names_of_slotted slotted differ))

/-- Members of a container were declared. -/
structure MembersDeclared (base : Nat) (id : ContainerId) (members : List Member)
    (declared : Declared) (S T : Symbols) : Prop where
  adds : S.Adds (some id) T
  fits : ∀ entry ∈ declared, entry.2.Fits T entry.1 ∧ base ≤ entry.1.owner
  holds : T.HoldsAll base id members
  bare : Bare S id → Bare T id
  new : ∀ other, S.containers.size ≤ other → Bare T other
  names : S.NamesDiffer → T.NamesDiffer
  modular : Modular S id → Modular T id
  modules : Member.classFreeAll members = true →
    ∀ other, S.containers.size ≤ other → Modular T other

/-- A container was declared. -/
structure ContainerDeclared (base : Nat) (id : ContainerId) (container : Container)
    (declared : Declared) (S T : Symbols) : Prop where
  adds : S.Adds none T
  fits : ∀ entry ∈ declared, entry.2.Fits T entry.1 ∧ base ≤ entry.1.owner
  holds : T.Holds base id container
  new : ∀ other, S.containers.size ≤ other → Bare T other
  names : S.NamesDiffer → T.NamesDiffer
  modules : container.classFree = true →
    ∀ other, S.containers.size ≤ other → Modular T other

/-- A member with a body in front of others. -/
theorem MembersDeclared.cons {head : Member} {scope : Scope}
    (rest : MembersDeclared base id members declared T U)
    (slotted : Slotted id S V) (added : Added id member V T) (inside : scope.Inside id)
    (new : base ≤ id) (small : id < S.containers.size) (plain : member.nested = none)
    (stored : member.isParam = false) (bare : member.Bare (S.get id).isClass)
    (declares : head.Declares (S.get id) member.name member)
    (holds : U.Has ⟨id, member.name⟩ head → U.HoldsAll base id (head :: members))
    (free : Member.classFreeAll (head :: members) = Member.classFreeAll members) :
    MembersDeclared base id (head :: members) ((⟨id, member.name⟩, ⟨head, scope⟩) :: declared) S U := by
  have adds := (slotted.adds.trans added.adds).trans rest.adds
  have has : U.Has ⟨id, member.name⟩ head :=
    ⟨member, rest.adds.member? added.found, plain, stored,
      declares.of_qualified (adds.qualified id small)⟩
  constructor
  case adds => exact adds
  case fits =>
    intro entry listed
    rcases List.mem_cons.mp listed with rfl | listed
    · exact ⟨⟨inside, has⟩, new⟩
    · exact rest.fits entry listed
  case holds => exact holds has
  case bare => exact fun earlier => rest.bare (bare_of_added slotted added small bare earlier)
  case new =>
    exact fun other outside => rest.new other (by rw [added.size, slotted.size]; exact outside)
  case names => exact fun differ => rest.names (added.names (names_of_slotted slotted differ))
  case modular =>
    intro earlier
    exact rest.modular (modular_of_added slotted added small stored earlier)
  case modules =>
    intro isFree other outside
    exact rest.modules (free ▸ isFree) other (by rw [added.size, slotted.size]; exact outside)

/-- A container in front of other members. -/
theorem MembersDeclared.cons_container (first : ContainerDeclared base nested container declared S V)
    (added : Added id member V T) (inner : member.nested = some nested)
    (named : member.name = container.name) (plain : member.isParam = false)
    (bare : member.Bare (S.get id).isClass)
    (rest : MembersDeclared base id members others T U) (small : id < S.containers.size) :
    MembersDeclared base id (.container container :: members) (declared ++ others) S U := by
  have adds := first.adds.weaken.trans (added.adds.trans rest.adds)
  have kept : ∀ other, S.containers.size ≤ other → other < V.containers.size →
      U.get other = V.get other := by
    intro other new old
    have differs : some other ≠ some id := by
      rintro ⟨⟩
      exact Nat.not_lt_of_le new small
    rw [rest.adds.others other (by rw [added.size]; exact old) differs,
      added.adds.others other old differs]
  constructor
  case adds => exact adds
  case fits =>
    intro entry listed
    rcases List.mem_append.mp listed with listed | listed
    · exact ⟨((first.fits entry listed).1.adds added.adds).adds rest.adds,
        (first.fits entry listed).2⟩
    · exact rest.fits entry listed
  case holds =>
    simp only [Symbols.HoldsAll]
    refine ⟨⟨member, nested, ?_, inner, (first.holds.adds added.adds).adds rest.adds⟩, rest.holds⟩
    rw [← named]
    exact rest.adds.member? added.found
  case bare =>
    intro earlier
    apply rest.bare
    intro own listed
    rw [added.adds.isClass id (Nat.lt_of_lt_of_le small first.adds.size),
      first.adds.others id small (by simp)]
    rw [added.members, first.adds.others id small (by simp), List.mem_append,
      List.mem_singleton] at listed
    rcases listed with listed | rfl
    · exact earlier own listed
    · exact bare
  case new =>
    intro other outside
    by_cases old : other < V.containers.size
    · unfold Bare
      rw [kept other outside old]
      exact first.new other outside
    · exact rest.new other (by rw [added.size]; exact Nat.le_of_not_lt old)
  case names => exact fun differ => rest.names (added.names (first.names differ))
  case modular =>
    intro earlier
    refine rest.modular (modular_of_added (.refl V) added
      (Nat.lt_of_lt_of_le small first.adds.size) plain ?_)
    unfold Modular
    rw [first.adds.others id small (by simp)]
    exact earlier
  case modules =>
    intro free other outside
    simp only [Member.classFreeAll, Bool.and_eq_true] at free
    by_cases old : other < V.containers.size
    · unfold Modular
      rw [kept other outside old]
      exact first.modules free.1 other outside
    · exact rest.modules free.2 other (by rw [added.size]; exact Nat.le_of_not_lt old)

theorem mem_scopedImports {owner : Option ContainerId} {index : Nat} {imports : List Import}
    {own : ScopedImport} (listed : own ∈ scopedImports owner index imports) : own.decl ∈ imports := by
  induction imports generalizing index with
  | nil => cases listed
  | cons decl rest ih =>
    rcases List.mem_cons.mp listed with rfl | listed
    · exact List.mem_cons_self
    · exact List.mem_cons_of_mem _ (ih listed)

theorem inside_containerFrame (plain : Scope.ids outer = []) :
    Scope.Inside id (containerFrame id members :: outer) where
  first := ⟨_, _, rfl, rfl⟩
  plain := by simpa [Scope.ids, containerFrame, importFrame] using plain

def ContainerDeclares (σ : Type) (base : Nat) (owner : Option ContainerId) (outer : Scope)
    (artifact : String) (container : Container) : Prop :=
  ∀ {s s' : Checking σ} {id : ContainerId} {declared : Declared}, outer.ids = [] →
    base ≤ s.symbols.containers.size →
    declareContainer owner outer artifact container s = .ok (id, declared) s' →
    ∃ T, s' = { s with symbols := T } ∧ ContainerDeclared base id container declared s.symbols T

def MembersDeclare (σ : Type) (base : Nat) (id : ContainerId) (scope : Scope) (artifact : String)
    (members : List Member) : Prop :=
  ∀ {s s' : Checking σ} {declared : Declared}, scope.Inside id → base ≤ id →
    id < s.symbols.containers.size →
    declareMembers id scope artifact members s = .ok declared s' →
    ∃ T, s' = { s with symbols := T } ∧ MembersDeclared base id members declared s.symbols T

theorem containerDeclares (members : ∀ id,
      MembersDeclare σ base id (containerFrame id own :: outer) artifact own) :
    ContainerDeclares σ base owner outer artifact (.mk span kind name exported params own) := by
  intro s s' id declared plain new run
  simp only [declareContainer, Check.bind_ok, Check.symbols_ok, Check.modify_ok, Check.pure_ok,
    Prod.mk.injEq] at run
  obtain ⟨_, _, ⟨rfl, rfl⟩, _, _, rfl, _, _, first, others, _, second, ⟨rfl, rfl⟩, rfl⟩ := run
  obtain ⟨_, rfl, one⟩ := declareParams_ok (by simp [Symbols.push]) first
  have room : s.symbols.containers.size < _ := Nat.lt_of_lt_of_eq (Nat.lt_succ_self _)
    ((Symbols.size_push s.symbols _).symm.trans one.size.symm)
  obtain ⟨T, rfl, two⟩ := members _ (inside_containerFrame plain) new room second
  have small := Nat.lt_of_lt_of_eq room one.size
  have isClass := (two.adds.isClass _ room).trans ((one.adds.isClass _ small).trans
    (congrArg ContainerSymbol.isClass (Symbols.get_push_new s.symbols _)))
  refine ⟨T, rfl, ?_⟩
  constructor
  case adds => exact (Symbols.adds_push _ _).hide (one.adds.trans two.adds) (Nat.le_refl _)
  case fits => exact two.fits
  case holds =>
    simp only [Symbols.Holds]
    refine ⟨new, Nat.lt_of_lt_of_le room two.adds.size, isClass, ?_, two.holds⟩
    intro param listed
    obtain ⟨member, found, stored⟩ := one.found param listed
    exact ⟨member, two.adds.member? found, stored⟩
  case new =>
    intro other outside
    by_cases own : other = s.symbols.containers.size
    · subst own
      apply two.bare (one.bare _)
      intro member none
      simp [Symbols.push, Symbols.get, Array.getD_eq_getD_getElem?] at none
    · apply two.new
      rw [one.size, Symbols.size_push]
      exact Nat.lt_of_le_of_ne outside (Ne.symm own)
  case names => exact fun differ => two.names (one.names (Symbols.names_push differ rfl))
  case modules =>
    intro free other outside
    simp only [Container.classFree, Bool.and_eq_true, decide_eq_true_eq, List.isEmpty_iff] at free
    by_cases own : other = s.symbols.containers.size
    · subst own
      apply two.modular
      rw [one.empty free.1.2]
      unfold Modular
      rw [Symbols.get_push_new]
      exact ⟨by simp [free.1.1], by simp⟩
    · apply two.modules free.2
      rw [one.size, Symbols.size_push]
      exact Nat.lt_of_le_of_ne outside (Ne.symm own)

/-- Declaration follows the nesting of containers. -/
theorem declares (base : Nat) (artifact : String) :
    (∀ owner outer container, ContainerDeclares σ base owner outer artifact container) ∧
    ∀ id scope members, MembersDeclare σ base id scope artifact members := by
  apply declareContainer.mutual_induct
  case case1 =>
    intro owner outer span kind name exported params own members
    exact containerDeclares members
  case case2 =>
    intro id scope s s' declared _ _ inside run
    rw [declareMembers] at run
    obtain ⟨rfl, rfl⟩ := Check.pure_ok.mp run
    refine ⟨_, rfl, .refl _, by simp, trivial, fun bare => bare, ?_, fun differ => differ,
      fun modular => modular, fun _ other outside => modular_of_outside outside⟩
    intro other outside member listed
    rw [Symbols.get_of_size_le outside] at listed
    simp at listed
  case case3 =>
    intro id scope decl rest ih s s' declared spot new inside run
    rw [declareMembers] at run
    simp only [Check.bind_ok, Check.pure_ok] at run
    obtain ⟨member, _, symbol, _, _, added, others, _, more, rfl, rfl⟩ := run
    obtain ⟨V, rfl, slotted, name, plain, stored, bare, declares⟩ := valSymbol_ok symbol
    obtain ⟨T, rfl, one⟩ := addMember_ok (by rw [slotted.size]; exact inside) added
    obtain ⟨U, rfl, two⟩ := ih spot new (by rw [one.size, slotted.size]; exact inside) more
    rw [← name] at declares ⊢
    have holds : U.Has ⟨id, member.name⟩ (.val decl) → U.HoldsAll base id (.val decl :: rest) :=
      fun has => ⟨name ▸ has, two.holds⟩
    exact ⟨U, rfl, two.cons slotted one spot new inside plain stored bare declares holds rfl⟩
  case case4 =>
    intro id scope decl rest ih s s' declared spot new inside run
    rw [declareMembers] at run
    simp only [Check.bind_ok, Check.pure_ok] at run
    obtain ⟨symbol, _, named, _, _, added, others, _, more, rfl, rfl⟩ := run
    obtain ⟨rfl, rfl⟩ := memberSymbol_ok named
    obtain ⟨T, rfl, one⟩ := addMember_ok inside added
    obtain ⟨U, rfl, two⟩ := ih spot new (by rw [one.size]; exact inside) more
    have holds : U.Has ⟨id, decl.name⟩ (.func decl) → U.HoldsAll base id (.func decl :: rest) :=
      fun has => ⟨has, two.holds⟩
    refine ⟨U, rfl, two.cons (.refl _) one spot new inside rfl rfl
      ⟨rfl, rfl, fun _ => ?_, fun _ => .inr ⟨_, rfl⟩, rfl⟩ ?_ holds rfl⟩
    · simp [MemberSymbol.Stored]
    · exact ⟨rfl, rfl, rfl⟩
  case case5 =>
    intro id scope decl rest ih s s' declared spot new inside run
    rw [declareMembers] at run
    simp only [Check.bind_ok, Check.pure_ok] at run
    obtain ⟨_, _, added, others, _, more, rfl, rfl⟩ := run
    obtain ⟨T, rfl, one⟩ := addMember_ok inside added
    obtain ⟨U, rfl, two⟩ := ih spot new (by rw [one.size]; exact inside) more
    have holds : U.Has ⟨id, decl.name⟩ (.foreign decl) → U.HoldsAll base id (.foreign decl :: rest) :=
      fun has => ⟨has, two.holds⟩
    refine ⟨U, rfl, two.cons (.refl _) one spot new inside rfl rfl
      ⟨rfl, rfl, fun _ => ?_, fun named => absurd rfl named, rfl⟩ ?_ holds rfl⟩
    · simp [MemberSymbol.Stored]
    · exact ⟨rfl, rfl, rfl⟩
  case case6 =>
    intro id scope decl rest container ih s s' declared spot new inside run
    rw [declareMembers] at run
    simp only [Check.bind_ok, Check.pure_ok] at run
    obtain ⟨⟨nested, own⟩, _, inner, _, _, added, others, _, more, rfl, rfl⟩ := run
    obtain ⟨V, rfl, first⟩ := container spot.plain (Nat.le_of_lt (Nat.lt_of_le_of_lt new inside)) inner
    have room := Nat.lt_of_lt_of_le inside first.adds.size
    obtain ⟨T, rfl, one⟩ := addMember_ok room added
    obtain ⟨U, rfl, two⟩ := ih spot new (by rw [one.size]; exact room) more
    refine ⟨U, rfl, .cons_container first one rfl rfl rfl
      ⟨rfl, rfl, fun _ => ?_, fun _ => .inl rfl, rfl⟩ two inside⟩
    simp [MemberSymbol.Stored]
  case case7 =>
    intro id scope decl rest ih s s' declared spot new inside run
    rw [declareMembers] at run
    obtain ⟨T, rfl, done⟩ := ih spot new inside run
    exact ⟨T, rfl, { done with holds := done.holds, modules := done.modules }⟩
  case case8 =>
    intro id scope span value rest ih s s' declared spot new inside run
    rw [declareMembers] at run
    obtain ⟨T, rfl, done⟩ := ih spot new inside run
    exact ⟨T, rfl, { done with holds := done.holds, modules := done.modules }⟩

/-- The items of a unit were declared, those in front of them having the given names. -/
structure ItemsDeclared (base : Nat) (items : List Container)
    (before named : List (String × ContainerId)) (declared : Declared) (S T : Symbols) : Prop where
  adds : S.Adds none T
  fits : ∀ entry ∈ declared, entry.2.Fits T entry.1 ∧ base ≤ entry.1.owner
  named : ∃ ids, named = before ++ (items.map (·.name)).zip ids ∧ ids.length = items.length ∧
    ∀ item ∈ items.zip ids, T.Holds base item.2 item.1
  new : ∀ other, S.containers.size ≤ other → Bare T other
  names : S.NamesDiffer → T.NamesDiffer
  modules : (∀ item ∈ items, item.classFree = true) →
    ∀ other, S.containers.size ≤ other → Modular T other

theorem declareItems_ok (plain : Scope.ids unit = []) (new : base ≤ s.symbols.containers.size)
    (run : (declareItems unit before items : Check σ _) s = .ok (named, declared) s') :
    ∃ T, s' = { s with symbols := T } ∧
      ItemsDeclared base items before named declared s.symbols T := by
  induction items generalizing s before named declared with
  | nil =>
    simp only [declareItems, Check.pure_ok, Prod.mk.injEq] at run
    obtain ⟨⟨rfl, rfl⟩, rfl⟩ := run
    refine ⟨_, rfl, .refl _, by simp, ⟨[], by simp⟩, ?_, fun differ => differ,
      fun _ other outside => modular_of_outside outside⟩
    intro other outside member listed
    rw [Symbols.get_of_size_le outside] at listed
    simp at listed
  | cons item rest ih =>
    simp only [declareItems, Check.guard_ok, Check.bind_ok, Check.pure_ok, Prod.mk.injEq] at run
    obtain ⟨-, ⟨id, own⟩, _, first, ⟨_, others⟩, _, more, ⟨rfl, rfl⟩, rfl⟩ := run
    obtain ⟨V, rfl, one⟩ := (declares base item.name).1 none unit item plain new first
    obtain ⟨T, rfl, two⟩ := ih (Nat.le_trans new one.adds.size) more
    obtain ⟨ids, rfl, count, holds⟩ := two.named
    have kept : ∀ other, other < V.containers.size → T.get other = V.get other :=
      fun other old => two.adds.others other old (by simp)
    refine ⟨T, rfl, one.adds.trans two.adds, ?_, ⟨id :: ids, ?_, ?_, ?_⟩, ?_, ?_, ?_⟩
    · intro entry listed
      rcases List.mem_append.mp listed with listed | listed
      · exact ⟨(one.fits entry listed).1.adds two.adds, (one.fits entry listed).2⟩
      · exact two.fits entry listed
    · simp
    · simp [count]
    · intro entry listed
      rcases List.mem_cons.mp listed with rfl | listed
      · exact one.holds.adds two.adds
      · exact holds entry listed
    · intro other outside
      by_cases old : other < V.containers.size
      · unfold Bare
        rw [kept other old]
        exact one.new other outside
      · exact two.new other (Nat.le_of_not_lt old)
    · exact fun differ => two.names (one.names differ)
    · intro free other outside
      by_cases old : other < V.containers.size
      · unfold Modular
        rw [kept other old]
        exact one.modules (free item List.mem_cons_self) other outside
      · exact two.modules (fun item listed => free item (List.mem_cons_of_mem _ listed)) other
          (Nat.le_of_not_lt old)

end Typing

end ScriptShell
