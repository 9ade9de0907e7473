import Mathlib.Data.List.Flatten
import ScriptShell.Code.Lowering
import ScriptShell.Proofs.Exports.Members
import ScriptShell.Proofs.Typing.Fields

/-! The parameters of constructors. A check fills them in before it comes to any member: a container gets
the names that it declares, those nested in it get theirs, and nothing else changes them. So the constructor
of a class takes exactly the values that its parameters declare, in their order, and stores each in the slot
it was declared with. -/
namespace ScriptShell

open Checking Typing

namespace ContainerSymbol

variable {c d : ContainerSymbol}

/-- The names of the parameters that the constructor of a container has. -/
def paramNames (container : ContainerSymbol) : List String := container.params.map (·.name)

/-- The names of the parameters that the constructor of a container is declared with. -/
def fieldNames (container : ContainerSymbol) : List String := container.fields.map (·.name)

/-- The slots of the parameters that the constructor of a class is declared with. -/
def fieldSlots (cls : ContainerSymbol) : List Nat := cls.fields.flatMap (·.slots)

theorem fields_eq_of_shape (same : c.shape = d.shape) : c.fields.map (·.shape) = d.fields.map (·.shape) := by
  have shaped (e : ContainerSymbol) :
      (e.members.map (·.shape)).filter (·.isParam) = e.fields.map (·.shape) := by
    rw [List.filter_map]
    rfl
  rw [← shaped, members_eq_of_shape same, shaped]

theorem fieldNames_eq_of_shape (same : c.shape = d.shape) : c.fieldNames = d.fieldNames := by
  have named (e : ContainerSymbol) : (e.fields.map (·.shape)).map (·.name) = e.fieldNames := by
    rw [List.map_map]
    rfl
  rw [← named, fields_eq_of_shape same, named]

theorem fieldSlots_eq_of_shape (same : c.shape = d.shape) : c.fieldSlots = d.fieldSlots := by
  have shaped (e : ContainerSymbol) : (e.fields.map (·.shape)).flatMap (·.slots) = e.fieldSlots := by
    rw [List.flatMap_map]
    rfl
  rw [← shaped, fields_eq_of_shape same, shaped]

/-- The slots of constructor parameters are slots of the class, each once. -/
theorem fieldSlots_sublist (cls : ContainerSymbol) : cls.fieldSlots.Sublist cls.slots :=
  List.filter_sublist.flatMap _

end ContainerSymbol

namespace Container

/-- The names that constructors are declared with, where containers are numbered from `next` on. -/
def fieldNamesFrom (next : ContainerId) : List ContainerSymbol → ContainerId → List String
  | [], _ => []
  | container :: rest, id => (if next = id then container.fieldNames else []) ++ fieldNamesFrom (next + 1) rest id

theorem fieldNamesFrom_append (next : ContainerId) (first second : List ContainerSymbol) (id : ContainerId) :
    fieldNamesFrom next (first ++ second) id =
      fieldNamesFrom next first id ++ fieldNamesFrom (next + first.length) second id := by
  induction first generalizing next with
  | nil => rfl
  | cons container rest ih =>
    rw [List.cons_append, fieldNamesFrom, fieldNamesFrom, ih, List.append_assoc, List.length_cons,
      Nat.add_right_comm, Nat.add_assoc next]

theorem fieldNamesFrom_below {next id : ContainerId} (containers : List ContainerSymbol) (below : id < next) :
    fieldNamesFrom next containers id = [] := by
  induction containers generalizing next with
  | nil => rfl
  | cons container rest ih =>
    rw [fieldNamesFrom, if_neg (Nat.ne_of_gt below), ih (Nat.lt_succ_of_lt below)]
    rfl

theorem fieldNamesFrom_eq (next i : Nat) (containers : List ContainerSymbol) :
    fieldNamesFrom next containers (next + i) = (containers[i]?.getD {}).fieldNames := by
  induction containers generalizing next i with
  | nil => rfl
  | cons container rest ih =>
    rw [fieldNamesFrom]
    cases i with
    | zero =>
      rw [Nat.add_zero, if_pos rfl, fieldNamesFrom_below rest (Nat.lt_succ_self next), List.append_nil]
      rfl
    | succ i =>
      have apart : next ≠ next + (i + 1) := Nat.ne_of_lt (Nat.lt_add_of_pos_right (Nat.succ_pos i))
      rw [if_neg apart, List.nil_append, Nat.add_comm i 1, ← Nat.add_assoc, ih]
      rw [Nat.add_comm 1 i]
      rfl

end Container

theorem Symbols.NumbersAll.of_shape {S T : Symbols} {id next : ContainerId} {members : List Member}
    (numbers : S.NumbersAll id next members) (same : T.shape = S.shape) : T.NumbersAll id next members := by
  refine numbers.keep fun key member found => ?_
  obtain ⟨later, present, shaped⟩ := Symbols.member?_of_shape same found
  exact ⟨later, present, MemberSymbol.nested_eq_of_shape shaped⟩

namespace Window

variable {σ : Type} {w : Window σ} {s t s' : Checking σ} {scope : Scope} {id : ContainerId}

/-- Between two members, constructors get further parameters. -/
structure Gains (w : Window σ) (names : ContainerId → List String) (s t : Checking σ) : Prop where
  ready : t.Consistent w.env w.room
  idle : t.Idle
  shape : t.symbols.shape = s.symbols.shape
  params : ∀ id, (t.symbols.get id).paramNames = (s.symbols.get id).paramNames ++ names id

theorem Gains.trans {names others : ContainerId → List String} (first : w.Gains names s t)
    (second : w.Gains others t s') : w.Gains (fun id => names id ++ others id) s s' where
  ready := second.ready
  idle := second.idle
  shape := second.shape.trans first.shape
  params id := by rw [second.params, first.params, List.append_assoc]

/-- The check of anything but a constructor parameter. -/
theorem Gains.of_moves (moves : w.Moves w.room s t) (idle : s.Idle) : w.Gains (fun _ => []) s t where
  ready := moves.consistent
  idle := moves.idle idle
  shape := moves.leads.shape
  params id := by
    rw [List.append_nil, ContainerSymbol.paramNames, moves.leads.still.params]
    rfl

theorem Gains.refl (ready : s.Consistent w.env w.room) (idle : s.Idle) : w.Gains (fun _ => []) s s :=
  .of_moves (.refl ready) idle

theorem Gains.congr {names others : ContainerId → List String} (gains : w.Gains names s t)
    (same : ∀ id, names id = others id) : w.Gains others s t :=
  funext same ▸ gains

theorem gains_setParam (ready : s.Consistent w.env w.room) (idle : s.Idle) (new : w.base ≤ id)
    (found : s.symbols.member? ⟨id, name⟩ = some member) (stored : member.isParam = true)
    (isVal : member.kind = .val) {type : Ty} (valued : type.OfMember) :
    w.Gains (fun other => if id = other then [name] else []) s (s.setParam id name type) where
  ready := (setParam_advances ready new found stored isVal valued).consistent
  idle := idle
  shape := shape_setParam id name type s
  params other := by
    rw [ContainerSymbol.paramNames, params_setParam (Symbols.inside_of_member? found)]
    split
    · rw [List.map_append]
      rfl
    · rw [List.append_nil]
      rfl

theorem resolveParams_gains (twins : w.Twins) (laid : scope.Laid w.home) (new : w.base ≤ id)
    (ready : s.Consistent w.env w.room) (idle : s.Idle)
    (params : ∀ param ∈ decls, ∃ member, s.symbols.member? ⟨id, param.name⟩ = some member ∧
      member.isParam = true ∧ member.kind = .val)
    (run : resolveParams w.env scope id decls s = .ok u s') :
    w.Gains (fun other => if id = other then decls.map (·.name) else []) s s' := by
  induction decls generalizing s with
  | nil =>
    rw [resolveParams] at run
    obtain ⟨-, rfl⟩ := Check.pure_ok.mp run
    exact (Gains.refl ready idle).congr fun other => by simp
  | cons param rest ih =>
    simp only [resolveParams, Check.bind_ok, Check.modifyMember_ok, Check.modify_ok] at run
    obtain ⟨type, t, resolved, _, _, rfl, _, _, rfl, run⟩ := run
    rw [twins.visits] at resolved
    have moving := moving twins.owned twins.laid w.room
    have typed := Gains.of_moves (resolveType_follows moving laid ready resolved).1 idle
    have valued := resolveType_ofMember moving.keeps ready resolved
    rw [List.forall_mem_cons] at params
    obtain ⟨⟨member, found, stored, isVal⟩, others⟩ := params
    obtain ⟨later, present, shaped⟩ := Symbols.member?_of_shape typed.shape found
    have own := typed.trans (gains_setParam typed.ready typed.idle new present
      ((MemberSymbol.isParam_eq_of_shape shaped).trans stored)
      ((MemberSymbol.kind_eq_of_shape shaped).trans isVal) valued)
    refine (own.trans (ih own.ready own.idle ?_ run)).congr fun other => ?_
    · intro other listed
      obtain ⟨member, found, stored, isVal⟩ := others other listed
      obtain ⟨later, present, shaped⟩ := Symbols.member?_of_shape own.shape found
      exact ⟨later, present, (MemberSymbol.isParam_eq_of_shape shaped).trans stored,
        (MemberSymbol.kind_eq_of_shape shaped).trans isVal⟩
    · by_cases same : id = other <;> simp [same]

/-- The constructors of a container and of those nested in it get the parameters they are declared with. -/
theorem resolveContainer_gains (twins : w.Twins) (artifact : String) :
    (∀ outer id container (s s' : Checking σ), s.Consistent w.env w.room → s.Idle → outer.Laid w.home →
      s.symbols.Holds w.base id container → s.symbols.Numbers id container →
      (∀ place n members, Within s.symbols.child outer id container place n members → place.Laid w.home) →
      resolveContainer w.env outer id container s = .ok () s' → ∀ path,
        w.Gains (Container.fieldNamesFrom id (container.table artifact path id)) s s') ∧
    ∀ scope id members (s s' : Checking σ), s.Consistent w.env w.room → s.Idle → scope.Laid w.home →
      s.symbols.HoldsAll w.base id members → ∀ next, s.symbols.NumbersAll id next members →
      (∀ inner, .container inner ∈ members → ∀ place n own,
        Within s.symbols.child scope (s.symbols.child id inner.name) inner place n own → place.Laid w.home) →
      resolveNested w.env scope id members s = .ok () s' → ∀ path,
        w.Gains (Container.fieldNamesFrom next (Member.tableAll artifact path next members)) s s' := by
  apply resolveContainer.mutual_induct
  case case1 =>
    intro outer id span kind name exported params members nested s s' ready idle laid holds numbers places run path
    simp only [Symbols.Holds] at holds
    simp only [Symbols.Numbers] at numbers
    obtain ⟨new, -, -, found, inner⟩ := holds
    simp only [resolveContainer, Check.bind_ok] at run
    obtain ⟨_, t, first, second⟩ := run
    have own := resolveParams_gains twins laid new ready idle found first
    have further := nested t s' own.ready own.idle (places _ _ _ .own) (inner.of_shape own.shape) (id + 1)
      (numbers.of_shape own.shape)
      (fun inner listed place n held within => by
        rw [child_of_shape own.shape] at within
        exact places place n held (.nested listed within)) second
    refine (own.trans (further (Container.pathIn path name))).congr fun other => ?_
    rw [Container.table, Container.fieldNamesFrom, ContainerSymbol.fieldNames, ContainerSymbol.fields,
      filter_memberSymbols, names_paramSymbols]
  case case2 =>
    intro scope id s s' ready idle _ _ next _ _ run path
    rw [resolveNested] at run
    obtain ⟨-, rfl⟩ := Check.pure_ok.mp run
    exact .refl ready idle
  case case3 =>
    intro scope id decl rest container others s s' ready idle laid holds next numbers places run path
    simp only [Symbols.HoldsAll] at holds
    simp only [Symbols.NumbersAll] at numbers
    obtain ⟨⟨member, nested, found, inner, held⟩, remaining⟩ := holds
    obtain ⟨⟨again, present, here, own⟩, behind⟩ := numbers
    obtain rfl : nested = next := by
      rw [found, Option.some.injEq] at present
      rw [← present, inner] at here
      exact Option.some.inj here
    have child : s.symbols.child id decl.name = nested := by simp [Symbols.child, found, inner]
    simp only [resolveNested, Check.bind_ok] at run
    obtain ⟨_, _, number, _, t, first, second⟩ := run
    obtain ⟨rfl, rfl⟩ := nestedId_ok found inner number
    have gains := container _ _ t ready idle laid held own (child ▸ places decl List.mem_cons_self) first
      (some path)
    have further := others t s' gains.ready gains.idle laid (remaining.of_shape gains.shape) _
      (behind.of_shape gains.shape)
      (fun inner listed place n own within => by
        rw [child_of_shape gains.shape] at within
        exact places inner (List.mem_cons_of_mem _ listed) place n own within) second path
    refine (gains.trans further).congr fun other => ?_
    rw [Member.tableAll, Container.fieldNamesFrom_append, Container.length_table]
  case case4 =>
    intro scope id head rest noContainer further s s' ready idle laid holds next numbers places run path
    have remaining : s.symbols.HoldsAll w.base id rest := by
      cases head with
      | container decl => exact absurd rfl (noContainer decl)
      | imports | expr => simpa only [Symbols.HoldsAll] using holds
      | val | func | foreign =>
        simp only [Symbols.HoldsAll] at holds
        exact holds.2
    have behind : s.symbols.NumbersAll id next rest := by
      cases head with
      | container decl => exact absurd rfl (noContainer decl)
      | imports | expr | val | func | foreign => simpa only [Symbols.NumbersAll] using numbers
    have same : Member.tableAll artifact path next (head :: rest) = Member.tableAll artifact path next rest := by
      cases head with
      | container decl => exact absurd rfl (noContainer decl)
      | imports | expr | val | func | foreign => rfl
    rw [resolveNested] at run
    · rw [same]
      exact further s s' ready idle laid remaining next behind (fun inner listed =>
        places inner (List.mem_cons_of_mem _ listed)) run path
    · exact noContainer

/-- The constructors of a unit get the parameters they are declared with. -/
theorem resolveItems_gains (twins : w.Twins) (laid : scope.Laid w.home) {items : List Container}
    {next : ContainerId} (ready : s.Consistent w.env w.room) (idle : s.Idle)
    (holds : ∀ item ∈ items.zip (Container.numbers next items), s.symbols.Holds w.base item.2 item.1 ∧
      s.symbols.Numbers item.2 item.1)
    (places : ∀ item ∈ items.zip (Container.numbers next items), ∀ place n members,
      Within s.symbols.child scope item.2 item.1 place n members → place.Laid w.home)
    (run : (forIn (items.zip (Container.numbers next items)) PUnit.unit
      fun (item : Container × ContainerId) (_ : PUnit) => (do
        resolveContainer w.env scope item.2 item.1
        return .yield PUnit.unit : Check σ (ForInStep PUnit))) s = .ok u s') :
    w.Gains (Container.fieldNamesFrom next (Container.tables next items)) s s' := by
  induction items generalizing s next with
  | nil =>
    rw [List.zip_nil_left, List.forIn_nil] at run
    obtain ⟨-, rfl⟩ := Check.pure_ok.mp run
    exact .refl ready idle
  | cons item rest ih =>
    rw [Container.numbers, List.zip_cons_cons] at holds places run
    rw [List.forall_mem_cons] at holds places
    simp only [List.forIn_cons, Check.bind_ok, Check.pure_ok] at run
    obtain ⟨_, _, ⟨_, t, resolved, rfl, rfl⟩, run⟩ := run
    have own := (resolveContainer_gains twins item.name).1 _ _ _ s t ready idle laid holds.1.1 holds.1.2 places.1
      resolved none
    have further := ih own.ready own.idle
      (fun other listed =>
        ⟨(holds.2 other listed).1.of_shape own.shape, (holds.2 other listed).2.of_shape own.shape⟩)
      (fun other listed place n members within => by
        rw [child_of_shape own.shape] at within
        exact places.2 other listed place n members within) run
    refine (own.trans further).congr fun id => ?_
    rw [Container.tables, Container.fieldNamesFrom_append, Container.length_table]

/-- Imports leave constructors alone. -/
theorem checkImports_gains (twins : w.Twins) (laid : scope.Laid w.home) {index : Nat} {imports : List Import}
    (ready : s.Consistent w.env w.room) (idle : s.Idle)
    (run : checkImports w.env scope index imports s = .ok typed s') : w.Gains (fun _ => []) s s' := by
  induction imports generalizing s index typed with
  | nil =>
    rw [checkImports] at run
    obtain ⟨-, rfl⟩ := Check.pure_ok.mp run
    exact .refl ready idle
  | cons first rest ih =>
    unfold checkImports at run
    cases sought : importAt? scope index with
    | none =>
      simp only [sought, Check.pure_ok] at run
      obtain ⟨-, rfl⟩ := run
      exact .refl ready idle
    | some place =>
      simp only [sought, Check.bind_ok, Check.pure_ok] at run
      obtain ⟨_, t, one, _, _, more, -, rfl⟩ := run
      obtain ⟨stands, front⟩ := importAt?_stands laid sought
      have own := Gains.of_moves (checkImport_follows twins (moving twins.owned twins.laid _) stands front ready
        one).1 idle
      exact own.trans (ih own.ready own.idle more)

end Window

namespace Typing

variable {σ : Type} {services : Services σ} {table : SymbolTable} {program : Program} {host : σ}
  {unit : CheckedUnit} {s' : Checking σ}

/-- Behind the check of a unit, constructors have the parameters they are declared with. -/
theorem checkProgram_gains (run : checkProgram services table program { symbols := table.symbols, host } =
    .ok unit s') : ∀ id, (unit.symbols.get id).paramNames = ((program.declared table).get id).paramNames ++
      Container.fieldNamesFrom table.symbols.containers.size
        (Container.tables table.symbols.containers.size program.items) id := by
  have distinct := distinct_of_ok run
  have opens : Opened _ program _ := opened table distinct
  have twins : (reorderWindow services table program program host).Twins :=
    twins_reorders (reorders_self program) distinct host
  have abreast : (reorderWindow services table program program host).Abreast _ _ :=
    abreast_reorders (reorders_self program) distinct host host
  rw [checkProgram_eq distinct] at run
  simp only [Check.bind_ok, Check.symbols_ok, Check.pure_ok] at run
  obtain ⟨_, s₁, resolved, typedImports, s₂, imported, typed, s₃, checked, _, _, ⟨rfl, rfl⟩, rfl, rfl⟩ :=
    run
  have places : ∀ item ∈ program.numbered table.symbols.containers.size, ∀ place n members,
      Within (program.declared table).child program.scope item.2 item.1 place n members → place.Laid _ :=
    fun item listed place n members within => opens.laid listed within
  have unit : program.scope.Laid _ := laid_unit table.symbols.containers.size program.imports program.items
  have first := Window.resolveItems_gains twins unit abreast.ready abreast.idle
    (fun item listed => ⟨opens.holds item listed, (opens.numbers item listed).1⟩) places resolved
  have second := Window.checkImports_gains twins unit first.ready first.idle imported
  have last := Window.Gains.of_moves (Window.checkItems_settles twins second.ready second.idle
    (second.shape.trans first.shape) places checked).1 second.idle
  intro id
  rw [((first.trans second).trans last).params, List.append_nil, List.append_nil]
  rfl

end Typing

namespace ContainerSymbol

variable {cls : ContainerSymbol} {member : MemberSymbol}

/-- A member is found by its name, where names differ. -/
theorem find?_of_mem (differ : (cls.members.map (·.name)).Nodup) (listed : member ∈ cls.members) :
    cls.find? member.name = some member := by
  unfold find?
  generalize cls.members = members at differ listed
  induction members with
  | nil => cases listed
  | cons first rest ih =>
    rw [List.map_cons, List.nodup_cons] at differ
    rcases List.mem_cons.mp listed with rfl | later
    · exact List.find?_cons_of_pos (by simp)
    · have apart : first.name ≠ member.name := fun same =>
        differ.1 (same ▸ List.mem_map_of_mem later)
      rw [List.find?_cons_of_neg (by simpa using apart), ih differ.2 later]

/-- The slot of the member of a name is part of the shape of a class. -/
theorem slot_find?_of_shape {c d : ContainerSymbol} (same : c.shape = d.shape) (name : String) :
    (c.find? name).bind (·.slot) = (d.find? name).bind (·.slot) := by
  have shaped (e : ContainerSymbol) :
      ((e.find? name).map (·.shape)).bind (·.slot) = (e.find? name).bind (·.slot) := by
    rw [Option.bind_map]
    rfl
  rw [← shaped, find?_eq_of_shape same, shaped]

/-- Each constructor parameter takes one slot, which is found under its name. -/
theorem Opens.fieldSlots (opens : cls.Opens) (isClass : cls.isClass = true) :
    cls.fieldNames.map (fun name => ((cls.find? name).bind (·.slot)).getD 0) = cls.fieldSlots := by
  have taken : ∀ member ∈ cls.fields, member.slots = [((cls.find? member.name).bind (·.slot)).getD 0] := by
    intro member listed
    obtain ⟨present, isParam⟩ := List.mem_filter.mp listed
    have placed := (opens.laidOut isClass).placed member present
    rw [MemberSymbol.Placed, opens.fields member present isParam] at placed
    obtain ⟨slot, stored⟩ := Option.isSome_iff_exists.mp placed.1
    rw [find?_of_mem opens.names present, Option.bind_some, MemberSymbol.slots, placed.2, stored]
    rfl
  rw [fieldNames, List.map_map, ContainerSymbol.fieldSlots, List.map_eq_flatMap]
  exact List.flatMap_congr fun member listed => (taken member listed).symm

end ContainerSymbol

/-- A class as the check of its unit leaves it: its objects are laid out, and the constructor stores what it
takes in the slots of its parameters, in their order. Parameters are values. -/
structure ContainerSymbol.Constructs (cls : ContainerSymbol) : Prop where
  laidOut : cls.LaidOut
  fields : ∀ member ∈ cls.fields, member.kind = .val
  params : cls.paramNames = cls.fieldNames
  stores : Lowering.argumentSlots cls = cls.fieldSlots

/-- Arguments go to different slots. -/
theorem ContainerSymbol.Constructs.stores_nodup {cls : ContainerSymbol} (whole : cls.Constructs) :
    (Lowering.argumentSlots cls).Nodup :=
  whole.stores ▸ cls.fieldSlots_sublist.nodup whole.laidOut.distinct

/-- The classes of an accepted unit are laid out, and their constructors take what they declare. -/
theorem typecheck_constructs {services : Services σ} {table : SymbolTable} {host host' : σ} {program : Program}
    {unit : Typing.CheckedUnit} {id : ContainerId}
    (accepted : typecheck services table host program = (.ok unit, host'))
    (new : table.symbols.containers.size ≤ id) (isClass : (unit.symbols.get id).isClass = true) :
    (unit.symbols.get id).Constructs := by
  obtain ⟨s, run⟩ := checkProgram_of_accepted accepted
  obtain ⟨distinct, shape, -⟩ := checkProgram_ok run
  have same := Symbols.get_eq_of_shape shape id
  have opens : ((program.declared table).get id).Opens := distinct.opens new
  have fields := ContainerSymbol.fields_eq_of_shape same
  have params : (unit.symbols.get id).paramNames = ((program.declared table).get id).fieldNames := by
    obtain ⟨i, rfl⟩ := Nat.exists_eq_add_of_le new
    rw [checkProgram_gains run, ContainerSymbol.paramNames, opens.params, List.map_nil, List.nil_append,
      Container.fieldNamesFrom_eq, program.get_declared new, Nat.add_sub_cancel_left]
  rw [ContainerSymbol.isClass_eq_of_shape same] at isClass
  refine ⟨(opens.laidOut isClass).of_shape same, fun member listed => ?_,
    params.trans (ContainerSymbol.fieldNames_eq_of_shape same).symm, ?_⟩
  · have present := List.mem_map_of_mem (f := MemberSymbol.shape) listed
    rw [fields] at present
    obtain ⟨before, there, shaped⟩ := List.mem_map.mp present
    obtain ⟨declared, isParam⟩ := List.mem_filter.mp there
    exact (MemberSymbol.kind_eq_of_shape shaped).symm.trans (opens.fields before declared isParam)
  calc Lowering.argumentSlots (unit.symbols.get id)
      = (unit.symbols.get id).paramNames.map
          fun name => ((((program.declared table).get id).find? name).bind (·.slot)).getD 0 := by
        rw [Lowering.argumentSlots, ContainerSymbol.paramNames, List.map_map]
        exact List.map_congr_left fun param _ => by
          rw [ContainerSymbol.slot_find?_of_shape same]
          rfl
    _ = ((program.declared table).get id).fieldSlots := by rw [params, opens.fieldSlots isClass]
    _ = (unit.symbols.get id).fieldSlots := (ContainerSymbol.fieldSlots_eq_of_shape same).symm

end ScriptShell
