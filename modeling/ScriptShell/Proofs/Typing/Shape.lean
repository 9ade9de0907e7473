import ScriptShell.Typing.Scope

/-! The shape of symbols: what their declaration fixes, which is everything but the types of members,
the parameters of functions, the values of inline members and the parameters of constructors. A
check only fills these in, so what depends on the shape alone holds before and after it. -/
namespace ScriptShell

/-- A member without what a check fills in. -/
def MemberSymbol.shape (member : MemberSymbol) : MemberSymbol :=
  { member with type := .error, params := [], constant := 0 }

/-- A container without what a check fills in. -/
def ContainerSymbol.shape (container : ContainerSymbol) : ContainerSymbol :=
  { container with members := container.members.map (·.shape), params := [] }

/-- The containers without what a check fills in. -/
def Symbols.shape (symbols : Symbols) : Array ContainerSymbol :=
  symbols.containers.map (·.shape)

namespace MemberSymbol

variable {a b : MemberSymbol}

theorem kind_eq_of_shape (same : a.shape = b.shape) : a.kind = b.kind := (congrArg kind same :)

theorem name_eq_of_shape (same : a.shape = b.shape) : a.name = b.name := (congrArg name same :)

theorem nested_eq_of_shape (same : a.shape = b.shape) : a.nested = b.nested := (congrArg nested same :)

theorem symbol_eq_of_shape (same : a.shape = b.shape) : a.symbol = b.symbol := (congrArg symbol same :)

theorem isParam_eq_of_shape (same : a.shape = b.shape) : a.isParam = b.isParam :=
  (congrArg isParam same :)

theorem slot_eq_of_shape (same : a.shape = b.shape) : a.slot = b.slot := (congrArg slot same :)

theorem flagSlot_eq_of_shape (same : a.shape = b.shape) : a.flagSlot = b.flagSlot :=
  (congrArg flagSlot same :)

theorem implicit_eq_of_shape (same : a.shape = b.shape) : a.implicit = b.implicit :=
  (congrArg implicit same :)

end MemberSymbol

namespace ContainerSymbol

variable {c d : ContainerSymbol}

theorem isClass_eq_of_shape (same : c.shape = d.shape) : c.isClass = d.isClass :=
  (congrArg isClass same :)

theorem qualified_eq_of_shape (same : c.shape = d.shape) : c.qualified = d.qualified :=
  (congrArg qualified same :)

theorem members_eq_of_shape (same : c.shape = d.shape) :
    c.members.map (·.shape) = d.members.map (·.shape) :=
  (congrArg members same :)

theorem find?_shape (c : ContainerSymbol) (name : String) :
    (c.find? name).map (·.shape) = (c.members.map (·.shape)).find? (·.name = name) := by
  rw [List.find?_map]
  rfl

theorem find?_eq_of_shape (same : c.shape = d.shape) (name : String) :
    (c.find? name).map (·.shape) = (d.find? name).map (·.shape) := by
  rw [find?_shape, find?_shape, members_eq_of_shape same]

end ContainerSymbol

namespace Symbols

variable {S T : Symbols}

theorem get_shape (S : Symbols) (id : ContainerId) : (S.get id).shape = S.shape.getD id {} := by
  unfold get shape
  by_cases inside : id < S.containers.size
  · simp [Array.getD_eq_getD_getElem?, inside]
  · simp only [Array.getD_eq_getD_getElem?, Array.getElem?_map]
    rw [Array.getElem?_eq_none (Nat.le_of_not_lt inside)]
    rfl

theorem get_eq_of_shape (same : T.shape = S.shape) (id : ContainerId) :
    (T.get id).shape = (S.get id).shape := by
  rw [get_shape, get_shape, same]

theorem size_of_shape (same : T.shape = S.shape) : T.containers.size = S.containers.size := by
  simpa [shape] using congrArg Array.size same

theorem isClass_of_shape (same : T.shape = S.shape) (id : ContainerId) :
    (T.get id).isClass = (S.get id).isClass :=
  ContainerSymbol.isClass_eq_of_shape (get_eq_of_shape same id)

theorem member?_eq_of_shape (same : T.shape = S.shape) (key : MemberKey) :
    (T.member? key).map (·.shape) = (S.member? key).map (·.shape) :=
  ContainerSymbol.find?_eq_of_shape (get_eq_of_shape same key.owner) key.name

/-- A member is still there, with its shape, among symbols of the same shape. -/
theorem member?_of_shape (same : T.shape = S.shape) {key : MemberKey} {member : MemberSymbol}
    (found : S.member? key = some member) :
    ∃ later, T.member? key = some later ∧ later.shape = member.shape := by
  have shapes := member?_eq_of_shape same key
  rw [found, Option.map_some, Option.map_eq_some_iff] at shapes
  exact shapes

theorem innermostClass?_of_shape (same : T.shape = S.shape) (scope : Scope) :
    scope.innermostClass? T = scope.innermostClass? S := by
  induction scope with
  | nil => rfl
  | cons frame outer ih =>
    simp only [Scope.innermostClass?, isClass_of_shape same, ih]

theorem get_modify (S : Symbols) (id other : ContainerId) (f : ContainerSymbol → ContainerSymbol)
    (empty : f {} = {}) :
    (S.modify id f).get other = if id = other then f (S.get other) else S.get other := by
  unfold get modify
  simp only [Array.getD_eq_getD_getElem?, Array.getElem?_modify]
  split
  · cases S.containers[other]? with
    | none => exact empty.symm
    | some container => rfl
  · rfl

theorem get_modifyMember (S : Symbols) (key : MemberKey) (f : MemberSymbol → MemberSymbol)
    (id : ContainerId) :
    (S.modifyMember key f).get id =
      if key.owner = id then (S.get id).modify key.name f else S.get id :=
  get_modify S key.owner id (·.modify key.name f) rfl

theorem find?_modify (container : ContainerSymbol) (name other : String)
    {f : MemberSymbol → MemberSymbol} (keeps : ∀ member, (f member).name = member.name) :
    (container.modify name f).find? other =
      if name = other then (container.find? other).map f else container.find? other := by
  unfold ContainerSymbol.find? ContainerSymbol.modify
  rw [List.find?_map]
  have names : ((fun member : MemberSymbol => decide (member.name = other)) ∘
      fun member => if member.name = name then f member else member) =
      fun member => decide (member.name = other) := by
    funext member
    by_cases own : member.name = name <;> simp [own, keeps]
  rw [names]
  cases found : container.members.find? (fun member => decide (member.name = other)) with
  | none => simp
  | some member =>
    have named : member.name = other := by simpa using List.find?_some found
    by_cases own : name = other <;> simp [own, named, eq_comm]

theorem member?_modifyMember {S : Symbols} {key other : MemberKey}
    {f : MemberSymbol → MemberSymbol} (keeps : ∀ member, (f member).name = member.name) :
    (S.modifyMember key f).member? other =
      if key = other then (S.member? other).map f else S.member? other := by
  unfold member?
  rw [get_modifyMember]
  by_cases owner : key.owner = other.owner
  · rw [if_pos owner, find?_modify _ _ _ keeps]
    by_cases name : key.name = other.name
    · have same : key = other := by cases key; cases other; simp_all
      rw [if_pos name, if_pos same]
    · rw [if_neg name, if_neg (fun same => name (congrArg MemberKey.name same))]
  · rw [if_neg owner, if_neg (fun same => owner (congrArg MemberKey.owner same))]

theorem found_modifyMember {S : Symbols} {key : MemberKey} {f : MemberSymbol → MemberSymbol}
    (found : S.member? key = some member) (keeps : ∀ member, (f member).name = member.name) :
    (S.modifyMember key f).member? key = some (f member) := by
  rw [member?_modifyMember keeps, if_pos rfl, found]
  rfl

theorem shape_modify (S : Symbols) (id : ContainerId) {f : ContainerSymbol → ContainerSymbol}
    (keeps : ∀ container, (f container).shape = container.shape) :
    (S.modify id f).shape = S.shape := by
  unfold shape modify
  apply Array.ext_getElem?
  intro i
  simp only [Array.getElem?_map, Array.getElem?_modify]
  split
  · cases S.containers[i]? <;> simp [keeps]
  · rfl

theorem shape_modifyMember (S : Symbols) (key : MemberKey) {f : MemberSymbol → MemberSymbol}
    (keeps : ∀ member, (f member).shape = member.shape) :
    (S.modifyMember key f).shape = S.shape := by
  apply shape_modify
  intro container
  unfold ContainerSymbol.modify ContainerSymbol.shape
  simp only [List.map_map, ContainerSymbol.mk.injEq, true_and, and_true]
  apply List.map_congr_left
  intro member _
  simp only [Function.comp]
  split
  · exact keeps member
  · rfl

end Symbols

end ScriptShell
