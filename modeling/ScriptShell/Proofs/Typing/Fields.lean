import ScriptShell.Proofs.Order.Units

/-! The slots of objects. A class counts its slots while its members are declared, each member taking what
it stores, so the slots of its members are the numbers from one on, each once and none left out. A check
fills in types and leaves the slots as they are. -/
namespace ScriptShell

/-- The slots of a member in the objects of its class: that of its value, then that of its flag. -/
def MemberSymbol.slots (member : MemberSymbol) : List Nat := member.slot.toList ++ member.flagSlot.toList

/-- A member has the slots that its kind stores. -/
def MemberSymbol.Placed (member : MemberSymbol) : Prop :=
  match member.kind with
  | .val => member.slot.isSome = true ∧ member.flagSlot = none
  | .lazyVal => member.slot.isSome = true ∧ member.flagSlot.isSome = true
  | .inlineVal | .func | .foreign | .container => member.slot = none ∧ member.flagSlot = none

/-- The slots of the members of a class, in the order of the members. -/
def ContainerSymbol.slots (cls : ContainerSymbol) : List Nat := cls.members.flatMap (·.slots)

/-- The members of a class whose slots the arguments of the constructor go to. -/
def ContainerSymbol.fields (cls : ContainerSymbol) : List MemberSymbol := cls.members.filter (·.isParam)

/-- The objects of a class are laid out: no two members share a slot, every slot but that of the class name
belongs to a member, and members have the slots that their kind stores. -/
structure ContainerSymbol.LaidOut (cls : ContainerSymbol) : Prop where
  named : 1 ≤ cls.slotCount
  distinct : cls.slots.Nodup
  covers : ∀ slot, slot ∈ cls.slots ↔ 1 ≤ slot ∧ slot < cls.slotCount
  placed : ∀ member ∈ cls.members, member.Placed

theorem MemberSymbol.mem_slots {member : MemberSymbol} {slot : Nat} :
    slot ∈ member.slots ↔ member.slot = some slot ∨ member.flagSlot = some slot := by
  rw [slots, List.mem_append, Option.mem_toList, Option.mem_toList]

theorem ContainerSymbol.mem_slots {cls : ContainerSymbol} {slot : Nat} :
    slot ∈ cls.slots ↔ ∃ member ∈ cls.members, slot ∈ member.slots :=
  List.mem_flatMap

theorem ContainerSymbol.LaidOut.of_range {cls : ContainerSymbol} (size : Nat)
    (range : cls.slots = List.range' 1 size) (count : cls.slotCount = 1 + size)
    (placed : ∀ member ∈ cls.members, member.Placed) : cls.LaidOut where
  named := count ▸ Nat.le_add_right 1 size
  distinct := range ▸ List.nodup_range'
  covers slot := by
    rw [range, count, List.mem_range'_1]
  placed := placed

/-- Members that share a slot are one. -/
theorem ContainerSymbol.LaidOut.member_unique {cls : ContainerSymbol} (laid : cls.LaidOut)
    {i j : Nat} (first : cls.members[i]? = some one) (second : cls.members[j]? = some two)
    (here : slot ∈ one.slots) (there : slot ∈ two.slots) : i = j := by
  have apart := (List.nodup_flatMap.mp laid.distinct).2
  obtain ⟨insideOne, rfl⟩ := List.getElem?_eq_some_iff.mp first
  obtain ⟨insideTwo, rfl⟩ := List.getElem?_eq_some_iff.mp second
  have disjoint := List.pairwise_iff_getElem.mp apart
  rcases Nat.lt_trichotomy i j with before | same | behind
  · exact absurd there (disjoint i j insideOne insideTwo before here)
  · exact same
  · exact absurd here (disjoint j i insideTwo insideOne behind there)

section

variable {isClass : Bool} {qualified : String}

theorem slots_paramSymbols (slot : Nat) (params : List ParamDecl) :
    (ParamDecl.symbols qualified slot params).flatMap (·.slots) = List.range' slot params.length := by
  induction params generalizing slot with
  | nil => rfl
  | cons param rest ih =>
    rw [ParamDecl.symbols, List.flatMap_cons, ih, List.length_cons, List.range'_succ]
    rfl

theorem placed_paramSymbols (slot : Nat) (params : List ParamDecl) :
    ∀ member ∈ ParamDecl.symbols qualified slot params, member.Placed ∧ member.kind = .val := by
  induction params generalizing slot with
  | nil => simp [ParamDecl.symbols]
  | cons param rest ih => exact List.forall_mem_cons.mpr ⟨⟨⟨rfl, rfl⟩, rfl⟩, ih (slot + 1)⟩

/-- A value takes as many slots as it counts, from the next one on. -/
theorem ValDecl.slots_symbol (decl : ValDecl) (slot : Nat) :
    (decl.symbol isClass qualified slot).slots = List.range' slot (decl.slots isClass) := by
  unfold ValDecl.symbol ValDecl.slots MemberSymbol.slots
  cases isClass <;> cases decl.mode <;> rfl

/-- Members take slots one after the other. -/
theorem slots_memberSymbols (slot : Nat) (next : ContainerId) (members : List Member) :
    (Member.symbols isClass qualified slot next members).flatMap (·.slots) =
      List.range' slot (Member.slotsAll isClass members) := by
  induction members generalizing slot next with
  | nil => rfl
  | cons member rest ih =>
    rw [Member.symbols, List.flatMap_append, ih, Member.slotsAll, ← List.range'_append_1]
    congr 1
    cases member with
    | val decl =>
      rw [Member.symbol?, Option.toList_some, List.flatMap_singleton]
      exact decl.slots_symbol slot
    | func | foreign | container | imports | expr => rfl

/-- What holds of the symbol that each member is declared with holds of all of them. -/
theorem forall_memberSymbols {holds : MemberSymbol → Prop}
    (each : ∀ member slot next, ∀ symbol ∈ Member.symbol? isClass qualified slot next member, holds symbol)
    (slot : Nat) (next : ContainerId) (members : List Member) :
    ∀ symbol ∈ Member.symbols isClass qualified slot next members, holds symbol := by
  induction members generalizing slot next with
  | nil => simp [Member.symbols]
  | cons member rest ih =>
    rw [Member.symbols, List.forall_mem_append]
    exact ⟨fun symbol own => each member slot next symbol (Option.mem_toList.mp own), ih _ _⟩

theorem placed_memberSymbols (slot : Nat) (next : ContainerId) (members : List Member) :
    ∀ symbol ∈ Member.symbols true qualified slot next members, symbol.Placed := by
  refine forall_memberSymbols (fun member slot next symbol own => ?_) slot next members
  cases member with
  | val decl =>
    cases own
    unfold ValDecl.symbol MemberSymbol.Placed
    cases decl.mode <;> exact ⟨rfl, rfl⟩
  | func | foreign | container =>
    cases own
    exact ⟨rfl, rfl⟩
  | imports | expr => cases own

theorem isParam_memberSymbols (slot : Nat) (next : ContainerId) (members : List Member) :
    ∀ symbol ∈ Member.symbols isClass qualified slot next members, symbol.isParam = false := by
  refine forall_memberSymbols (fun member slot next symbol own => ?_) slot next members
  cases member with
  | val | func | foreign | container =>
    cases own
    rfl
  | imports | expr => cases own

/-- The constructor parameters among the symbols of a container. -/
theorem filter_memberSymbols (params : List ParamDecl) (slot after : Nat) (next : ContainerId)
    (members : List Member) :
    (ParamDecl.symbols qualified slot params ++ Member.symbols isClass qualified after next members).filter
      (·.isParam) = ParamDecl.symbols qualified slot params := by
  have none : (Member.symbols isClass qualified after next members).filter (·.isParam) = [] :=
    List.filter_eq_nil_iff.mpr (by simpa using isParam_memberSymbols after next members)
  rw [List.filter_append, none, List.append_nil]
  induction params generalizing slot with
  | nil => rfl
  | cons param rest ih => rw [ParamDecl.symbols, List.filter_cons_of_pos rfl, ih]

end

/-- A container as it is declared: its names differ, its constructor has no parameter yet, those that it will
have are values, and the objects of a class are laid out. -/
structure ContainerSymbol.Opens (container : ContainerSymbol) : Prop where
  names : (container.members.map (·.name)).Nodup
  params : container.params = []
  fields : ∀ member ∈ container.members, member.isParam = true → member.kind = .val
  laidOut : container.isClass = true → container.LaidOut

mutual

theorem Container.opens_table (artifact : String) (outer : Option String) (next : ContainerId) :
    ∀ container : Container, container.Distinct →
      ∀ symbol ∈ container.table artifact outer next, symbol.Opens
  | .mk _ kind name _ params members, distinct => by
    rw [Container.Distinct] at distinct
    rw [Container.table, List.forall_mem_cons]
    refine ⟨⟨?_, rfl, ?_, fun isClass => ?_⟩, Member.opens_tableAll artifact _ _ members distinct.2⟩
    · rw [List.map_append, Typing.names_paramSymbols, Member.names_symbols]
      exact distinct.1
    · intro member listed isParam
      rcases List.mem_append.mp listed with param | own
      · exact (placed_paramSymbols _ _ member param).2
      · rw [isParam_memberSymbols _ _ _ member own] at isParam
        cases isParam
    · have isClass : decide (kind = .classKind) = true := isClass
      rw [isClass]
      refine .of_range (params.length + Member.slotsAll true members) ?_ (Nat.add_assoc _ _ _) ?_
      · rw [ContainerSymbol.slots, List.flatMap_append, slots_paramSymbols, slots_memberSymbols,
          List.range'_append_1]
      · intro member listed
        rcases List.mem_append.mp listed with param | own
        · exact (placed_paramSymbols _ _ member param).1
        · exact placed_memberSymbols _ _ _ member own

theorem Member.opens_tableAll (artifact outer : String) (next : ContainerId) : ∀ members : List Member,
    Member.DistinctAll members → ∀ symbol ∈ Member.tableAll artifact outer next members, symbol.Opens
  | [], _ => by simp [Member.tableAll]
  | .container decl :: rest, distinct => by
    rw [Member.DistinctAll] at distinct
    rw [Member.tableAll, List.forall_mem_append]
    exact ⟨Container.opens_table artifact _ _ decl distinct.1,
      Member.opens_tableAll artifact outer _ rest distinct.2⟩
  | .imports _ :: rest, distinct | .val _ :: rest, distinct | .func _ :: rest, distinct
  | .foreign _ :: rest, distinct | .expr _ _ :: rest, distinct => by
    simp only [Member.DistinctAll] at distinct
    simp only [Member.tableAll]
    exact Member.opens_tableAll artifact outer next rest distinct

end

theorem Container.opens_tables (next : ContainerId) {items : List Container}
    (distinct : ∀ item ∈ items, item.Distinct) : ∀ symbol ∈ Container.tables next items, symbol.Opens := by
  induction items generalizing next with
  | nil => simp [Container.tables]
  | cons item rest ih =>
    rw [List.forall_mem_cons] at distinct
    rw [Container.tables, List.forall_mem_append]
    exact ⟨item.opens_table _ _ _ distinct.1, ih _ distinct.2⟩

/-! Slots belong to the shape of symbols. -/

namespace ContainerSymbol

variable {c d : ContainerSymbol}

theorem slotCount_eq_of_shape (same : c.shape = d.shape) : c.slotCount = d.slotCount :=
  (congrArg slotCount same :)

theorem slots_eq_of_shape (same : c.shape = d.shape) : c.slots = d.slots := by
  have shaped (e : ContainerSymbol) : (e.members.map (·.shape)).flatMap (·.slots) = e.slots := by
    rw [List.flatMap_map]
    rfl
  rw [← shaped, members_eq_of_shape same, shaped]

theorem LaidOut.of_shape (laid : d.LaidOut) (same : c.shape = d.shape) : c.LaidOut where
  named := slotCount_eq_of_shape same ▸ laid.named
  distinct := slots_eq_of_shape same ▸ laid.distinct
  covers := by
    rw [slots_eq_of_shape same, slotCount_eq_of_shape same]
    exact laid.covers
  placed member listed := by
    have present := List.mem_map_of_mem (f := MemberSymbol.shape) listed
    rw [members_eq_of_shape same] at present
    obtain ⟨before, there, shaped⟩ := List.mem_map.mp present
    have placed := laid.placed before there
    unfold MemberSymbol.Placed at placed ⊢
    rw [← MemberSymbol.kind_eq_of_shape shaped, ← MemberSymbol.slot_eq_of_shape shaped,
      ← MemberSymbol.flagSlot_eq_of_shape shaped]
    exact placed

end ContainerSymbol

/-- The containers that a unit declares are found behind those of finished units. -/
theorem Program.get_declared {table : SymbolTable} {id : ContainerId} (program : Program)
    (new : table.symbols.containers.size ≤ id) :
    (program.declared table).get id = ((Container.tables table.symbols.containers.size
      program.items)[id - table.symbols.containers.size]?).getD {} := by
  obtain ⟨i, rfl⟩ := Nat.exists_eq_add_of_le new
  rw [Program.declared, Symbols.get_extend_new, Nat.add_sub_cancel_left]

/-- A unit declares containers as they open. -/
theorem Program.Distinct.opens {table : SymbolTable} {id : ContainerId} {program : Program}
    (distinct : program.Distinct) (new : table.symbols.containers.size ≤ id) :
    ((program.declared table).get id).Opens := by
  rw [program.get_declared new]
  cases found : (Container.tables table.symbols.containers.size
      program.items)[id - table.symbols.containers.size]? with
  | none => exact ⟨List.nodup_nil, rfl, by simp, by simp⟩
  | some symbol => exact Container.opens_tables _ distinct.items symbol (List.mem_of_getElem? found)

end ScriptShell
