import Mathlib.Data.List.Nodup
import ScriptShell.Proofs.Order.Places
import ScriptShell.Proofs.Order.Reordering

/-! Declarations of functions in another order. The containers get the same numbers, and each the same
symbols but for their order; the members with bodies are the same, each in the same scope. -/
namespace ScriptShell

/-- Symbols of a container that differ in the order of members only. -/
structure ContainerSymbol.Alike (one two : ContainerSymbol) : Prop where
  same : two = { one with members := two.members }
  found : ∀ name, two.find? name = one.find? name
  conversions : two.members.filter Typing.isConversion = one.members.filter Typing.isConversion

theorem ContainerSymbol.Alike.refl (own : ContainerSymbol) : own.Alike own := ⟨rfl, fun _ => rfl, rfl⟩

/-- Where the names differ, a member is found whatever the order. -/
theorem find?_of_perm {members others : List MemberSymbol} (perm : others.Perm members)
    (nodup : (members.map (·.name)).Nodup) (name : String) :
    others.find? (·.name = name) = members.find? (·.name = name) := by
  induction perm with
  | nil => rfl
  | cons first _ ih =>
    rw [List.find?_cons, List.find?_cons, ih (List.nodup_cons.mp nodup).2]
  | swap first second rest =>
    simp only [List.find?_cons]
    by_cases one : first.name = name
    · have two : second.name ≠ name := by
        rintro rfl
        simp [one] at nodup
      simp [one, two]
    · simp [one]
  | trans first second ihFirst ihSecond =>
    rw [ihFirst ((second.map _).nodup_iff.mpr nodup), ihSecond nodup]

namespace Member

variable {isClass : Bool} {qualified : String} {slot : Nat} {next : ContainerId} {members between others : List Member}

/-- The symbol of a function does not depend on what stands in front of it. -/
theorem symbol?_of_isDef {member : Member} (isDef : member.isDef = true) (slot : Nat) (next : ContainerId) :
    member.symbol? isClass qualified slot next = member.symbol? isClass qualified 0 0 := by
  cases member <;> first | rfl | cases isDef

/-- Functions take no slots and no numbers. -/
theorem symbols_split (slot : Nat) (next : ContainerId) (members : List Member) :
    (symbols isClass qualified slot next members).Perm
      ((members.filter (·.isDef)).filterMap (·.symbol? isClass qualified 0 0) ++
        symbols isClass qualified slot next (members.filter (!·.isDef))) := by
  induction members generalizing slot next with
  | nil => exact .refl _
  | cons member rest ih =>
    cases isDef : member.isDef with
    | true =>
      have slots : member.slots isClass = 0 := by cases member <;> first | rfl | cases isDef
      have count : member.count = 0 := by cases member <;> first | rfl | cases isDef
      have split : (member :: (rest.filter (·.isDef))).filterMap (·.symbol? isClass qualified 0 0) =
          (member.symbol? isClass qualified slot next).toList ++
            (rest.filter (·.isDef)).filterMap (·.symbol? isClass qualified 0 0) := by
        rw [symbol?_of_isDef isDef, List.filterMap_cons]
        cases member.symbol? isClass qualified 0 0 <;> rfl
      simp only [List.filter_cons, isDef, if_true, Bool.not_true, Bool.false_eq_true, if_false, split]
      rw [symbols, slots, count, List.append_assoc]
      exact (ih slot next).append_left _
    | false =>
      simp only [List.filter_cons, isDef, if_true, Bool.not_false, Bool.false_eq_true, if_false, symbols]
      refine ((ih _ _).append_left _).trans ?_
      rw [← List.append_assoc, ← List.append_assoc]
      exact List.perm_append_comm.append_right _

theorem Shuffles.symbols (shuffles : Shuffles members others) (slot : Nat) (next : ContainerId) :
    (symbols isClass qualified slot next others).Perm (Member.symbols isClass qualified slot next members) := by
  refine (symbols_split slot next others).trans (.trans ?_ (symbols_split slot next members).symm)
  rw [shuffles.rest]
  exact ((shuffles.perm.filter _).filterMap _).append_right _

/-- Implicit functions keep their order. -/
theorem symbols_conversions (slot : Nat) (next : ContainerId) (members : List Member) :
    (symbols isClass qualified slot next members).filter Typing.isConversion =
      (members.filter (·.converts)).filterMap (·.symbol? isClass qualified 0 0) := by
  induction members generalizing slot next with
  | nil => rfl
  | cons member rest ih =>
    rw [symbols, List.filter_append, ih, List.filter_cons]
    cases member with
    | func decl => cases decl_implicit : decl.implicit <;>
        simp [symbol?, Member.converts, Typing.isConversion, DefDecl.symbol, decl_implicit]
    | val decl => cases mode : decl.mode <;>
        simp [symbol?, Member.converts, Typing.isConversion, ValDecl.symbol, ValMode.kind, mode]
    | imports | expr => simp [symbol?, Member.converts]
    | foreign decl => simp [symbol?, Member.converts, Typing.isConversion, ForeignDecl.symbol]
    | container decl => simp [symbol?, Member.converts, Typing.isConversion, Container.symbol]

theorem containers_cons (decl : Container) (rest : List Member) :
    containers (.container decl :: rest) = decl :: containers rest :=
  rfl

theorem countAll_containers (members : List Member) :
    countAll members = countAll ((containers members).map .container) := by
  induction members with
  | nil => rfl
  | cons member rest ih =>
    rw [countAll_cons, ih]
    cases member with
    | container decl => rw [containers_cons, List.map_cons, countAll_cons]
    | imports | val | func | foreign | expr => exact Nat.zero_add _

theorem tableAll_containers (artifact outer : String) (next : ContainerId) (members : List Member) :
    tableAll artifact outer next members = tableAll artifact outer next ((containers members).map .container) := by
  induction members generalizing next with
  | nil => rfl
  | cons member rest ih =>
    cases member with
    | container decl =>
      rw [containers_cons, List.map_cons, tableAll, tableAll, ih]
    | imports | val | func | foreign | expr => exact ih next

theorem Shuffles.tableAll (shuffles : Shuffles members others) (artifact outer : String) (next : ContainerId) :
    Member.tableAll artifact outer next others = Member.tableAll artifact outer next members := by
  rw [tableAll_containers, shuffles.containers, ← tableAll_containers]

theorem distinctAll_containers (members : List Member) :
    DistinctAll members ↔ ∀ inner ∈ containers members, inner.Distinct := by
  induction members with
  | nil => simp [DistinctAll, containers]
  | cons member rest ih =>
    cases member with
    | container decl =>
      rw [containers_cons, List.forall_mem_cons, DistinctAll, ih]
    | imports | val | func | foreign | expr => exact ih

/-- The members of a list itself, and those of the containers among them. -/
theorem declsAll_split (scope : Scope) (id next : ContainerId) (members : List Member) :
    (declsAll scope id next members).Perm (members.filterMap (·.decl? scope id) ++
      declsAll scope id next ((containers members).map .container)) := by
  induction members generalizing next with
  | nil => exact .refl _
  | cons member rest ih =>
    cases member with
    | container decl =>
      rw [containers_cons, List.map_cons, declsAll, declsAll, List.filterMap_cons_none rfl]
      refine ((ih _).append_left _).trans ?_
      rw [← List.append_assoc, ← List.append_assoc]
      exact List.perm_append_comm.append_right _
    | val | func | foreign => exact (ih next).cons _
    | imports | expr => exact ih next

theorem slotsAll_perm (perm : others.Perm members) : slotsAll isClass others = slotsAll isClass members := by
  induction perm with
  | nil => rfl
  | cons member _ ih => rw [slotsAll, slotsAll, ih]
  | swap first second rest => simp only [slotsAll, Nat.add_left_comm]
  | trans _ _ ihFirst ihSecond => exact ihFirst.trans ihSecond

end Member

mutual

theorem Container.Reorders.count : ∀ {container other : Container}, container.Reorders other →
    other.count = container.count
  | _, _, .mk inner order => by
    rw [Container.count, Container.count, Member.countAll_containers, order.containers,
      ← Member.countAll_containers, inner.countAll]

theorem Member.Reorders.countAll : ∀ {members others : List Member}, Member.Reorders members others →
    Member.countAll others = Member.countAll members
  | _, _, .nil => rfl
  | _, _, .keep rest => by rw [Member.countAll_cons, Member.countAll_cons, rest.countAll]
  | _, _, .container own rest => by rw [Member.countAll, Member.countAll, own.count, rest.countAll]

end

namespace Member

variable {isClass : Bool} {qualified : String} {members between others : List Member}

theorem Reorders.names (reorders : Reorders members others) :
    others.filterMap (·.name?) = members.filterMap (·.name?) := by
  induction members generalizing others with
  | nil =>
    cases reorders
    rfl
  | cons member members ih =>
    cases reorders with
    | keep rest => rw [List.filterMap_cons, List.filterMap_cons, ih rest]
    | container related rest =>
      exact congrArg₂ List.cons related.matches.name (ih rest)

theorem Reorders.slotsAll (reorders : Reorders members others) :
    Member.slotsAll isClass others = Member.slotsAll isClass members := by
  induction members generalizing others with
  | nil =>
    cases reorders
    rfl
  | cons member members ih =>
    cases reorders with
    | keep rest => rw [Member.slotsAll, Member.slotsAll, ih rest]
    | container own rest =>
      rw [Member.slotsAll, Member.slotsAll, ih rest]
      rfl

/-- Containers keep their names and their numbers. -/
theorem Reorders.symbols (reorders : Reorders members others) (slot : Nat) (next : ContainerId) :
    Member.symbols isClass qualified slot next others = Member.symbols isClass qualified slot next members := by
  induction members generalizing others slot next with
  | nil =>
    cases reorders
    rfl
  | cons member members ih =>
    cases reorders with
    | keep rest => rw [Member.symbols, Member.symbols, ih rest]
    | @container own other _ _ related rest =>
      have symbol : other.symbol next = own.symbol next := by
        rw [Container.symbol, Container.symbol, related.matches.name]
      have number : Member.count (.container other) = Member.count (.container own) := related.count
      rw [Member.symbols, Member.symbols, ih rest, number, symbol?, symbol?, symbol]
      rfl

end Member

mutual

theorem Container.Reorders.distinct : ∀ {container other : Container}, container.Reorders other →
    container.Distinct → other.Distinct
  | _, _, .mk inner order, distinct => by
    rw [Container.Distinct] at distinct ⊢
    refine ⟨?_, ?_⟩
    · rw [((order.perm.filterMap _).append_left _).nodup_iff, inner.names]
      exact distinct.1
    · rw [Member.distinctAll_containers, order.containers, ← Member.distinctAll_containers]
      exact inner.distinctAll distinct.2

theorem Member.Reorders.distinctAll : ∀ {members others : List Member}, Member.Reorders members others →
    Member.DistinctAll members → Member.DistinctAll others
  | _, _, .nil, _ => trivial
  | member :: _, _, .keep rest, distinct => by
    cases member with
    | container decl =>
      rw [Member.DistinctAll] at distinct ⊢
      exact ⟨distinct.1, rest.distinctAll distinct.2⟩
    | imports | val | func | foreign | expr =>
      simp only [Member.DistinctAll] at distinct ⊢
      exact rest.distinctAll distinct
  | _, _, .container own rest, distinct => by
    rw [Member.DistinctAll] at distinct ⊢
    exact ⟨own.distinct distinct.1, rest.distinctAll distinct.2⟩

end

/-- The symbols of a container whose members are reordered. -/
theorem Member.Shuffles.alike {members others : List Member} (shuffles : Member.Shuffles members others)
    {own two : ContainerSymbol} {params : List MemberSymbol} (same : two = { own with members := two.members })
    (first : own.members = params ++ Member.symbols isClass qualified slot next members)
    (second : two.members = params ++ Member.symbols isClass qualified slot next others)
    (nodup : (own.members.map (·.name)).Nodup) : own.Alike two where
  same := same
  found name := by
    refine find?_of_perm ?_ nodup name
    rw [first, second]
    exact (shuffles.symbols slot next).append_left params
  conversions := by
    rw [first, second, List.filter_append, List.filter_append, Member.symbols_conversions,
      Member.symbols_conversions, shuffles.conversions]

/-- The names of the symbols of members are those of the members. -/
theorem Member.names_symbols (isClass : Bool) (qualified : String) (slot : Nat) (next : ContainerId)
    (members : List Member) : (Member.symbols isClass qualified slot next members).map (·.name) =
      members.filterMap (·.name?) := by
  induction members generalizing slot next with
  | nil => rfl
  | cons member rest ih =>
    rw [Member.symbols, List.map_append, ih]
    cases member <;> rfl

mutual

/-- The symbols of the containers differ in the order of members only. -/
theorem Container.Reorders.table (artifact : String) : ∀ {container other : Container},
    container.Reorders other → container.Distinct → ∀ (outer : Option String) (next : ContainerId),
      List.Forall₂ ContainerSymbol.Alike (container.table artifact outer next) (other.table artifact outer next)
  | _, _, .mk inner order, distinct, outer, next => by
    rw [Container.Distinct] at distinct
    rw [Container.table, Container.table, ← inner.slotsAll, Member.slotsAll_perm order.perm, ← inner.symbols]
    refine .cons (order.alike rfl rfl rfl ?_) ?_
    · rw [List.map_append, Typing.names_paramSymbols, Member.names_symbols, inner.names]
      exact distinct.1
    · rw [order.tableAll]
      exact inner.tableAll artifact distinct.2 _ _

theorem Member.Reorders.tableAll (artifact : String) : ∀ {members others : List Member},
    Member.Reorders members others → Member.DistinctAll members → ∀ (outer : String) (next : ContainerId),
      List.Forall₂ ContainerSymbol.Alike (Member.tableAll artifact outer next members)
        (Member.tableAll artifact outer next others)
  | _, _, .nil, _, _, _ => .nil
  | member :: _, _, .keep rest, distinct, outer, next => by
    cases member with
    | container decl =>
      rw [Member.DistinctAll] at distinct
      rw [Member.tableAll, Member.tableAll]
      exact List.rel_append (List.forall₂_same.mpr fun own _ => .refl own)
        (rest.tableAll artifact distinct.2 _ _)
    | imports | val | func | foreign | expr =>
      simp only [Member.DistinctAll] at distinct
      exact rest.tableAll artifact distinct outer next
  | _, _, .container own rest, distinct, outer, next => by
    rw [Member.DistinctAll] at distinct
    rw [Member.tableAll, Member.tableAll, own.count]
    exact List.rel_append (own.table artifact distinct.1 _ _) (rest.tableAll artifact distinct.2 _ _)

end

theorem Member.Shuffles.declsAll {members others : List Member} (shuffles : Member.Shuffles members others)
    (scope : Scope) (id next : ContainerId) :
    (Member.declsAll scope id next others).Perm (Member.declsAll scope id next members) := by
  refine (Member.declsAll_split scope id next others).trans
    (.trans ?_ (Member.declsAll_split scope id next members).symm)
  rw [shuffles.containers]
  exact (shuffles.perm.filterMap _).append_right _

mutual

/-- The members with bodies are the same, and so are their scopes. -/
theorem Container.Reorders.decls : ∀ {container other : Container}, container.Reorders other →
    ∀ (outer : Scope) (id : ContainerId), (other.decls outer id).Perm (container.decls outer id)
  | _, _, .mk inner order, outer, id => by
    rw [Container.decls, Container.decls, Typing.containerFrame, Typing.containerFrame, order.imports,
      inner.imports]
    exact (order.declsAll _ _ _).trans (inner.declsAll _ _ _)

theorem Member.Reorders.declsAll : ∀ {members others : List Member}, Member.Reorders members others →
    ∀ (scope : Scope) (id next : ContainerId),
      (Member.declsAll scope id next others).Perm (Member.declsAll scope id next members)
  | _, _, .nil, _, _, _ => .refl _
  | member :: _, _, .keep rest, scope, id, next => by
    cases member with
    | container decl =>
      rw [Member.declsAll, Member.declsAll]
      exact (rest.declsAll _ _ _).append_left _
    | imports | val | func | foreign | expr => exact (rest.declsAll scope id next).append_left _
  | _, _, .container own rest, scope, id, next => by
    rw [Member.declsAll, Member.declsAll, own.count]
    exact (own.decls _ _).append (rest.declsAll _ _ _)

end

mutual

/-- A member with a body is checked in the scope of its container. -/
theorem Container.scope_decls (outer : Scope) (id : ContainerId) : ∀ (container : Container),
    ∀ entry ∈ container.decls outer id, (entry.1.owner, entry.2.scope) ∈ container.scopes outer id
  | .mk _ _ _ _ _ members, entry, listed => by
    rw [Container.decls] at listed
    rw [Container.scopes]
    rcases Member.scope_declsAll _ _ _ members entry listed with ⟨owner, scope, -⟩ | deeper
    · rw [owner, scope]
      exact List.mem_cons_self
    · exact List.mem_cons_of_mem _ deeper

theorem Member.scope_declsAll (scope : Scope) (id next : ContainerId) : ∀ (members : List Member),
    ∀ entry ∈ Member.declsAll scope id next members,
      (entry.1.owner = id ∧ entry.2.scope = scope ∧ entry.1.name ∈ members.filterMap (·.name?)) ∨
        (entry.1.owner, entry.2.scope) ∈ Member.scopesAll scope next members
  | [], _, listed => by cases listed
  | .container decl :: rest, entry, listed => by
    rw [Member.declsAll, List.mem_append] at listed
    rw [Member.scopesAll]
    rcases listed with listed | listed
    · exact .inr (List.mem_append_left _ (decl.scope_decls _ _ entry listed))
    · rcases Member.scope_declsAll scope id _ rest entry listed with ⟨owner, same, name⟩ | deeper
      · exact .inl ⟨owner, same, List.mem_cons_of_mem _ name⟩
      · exact .inr (List.mem_append_right _ deeper)
  | .val decl :: rest, entry, listed | .func decl :: rest, entry, listed
  | .foreign decl :: rest, entry, listed => by
    rcases List.mem_cons.mp listed with rfl | listed
    · exact .inl ⟨rfl, rfl, List.mem_cons_self⟩
    · exact (Member.scope_declsAll scope id next rest entry listed).imp_left fun own =>
        ⟨own.1, own.2.1, List.mem_cons_of_mem _ own.2.2⟩
  | .imports _ :: rest, entry, listed | .expr _ _ :: rest, entry, listed =>
    Member.scope_declsAll scope id next rest entry listed

end

theorem Container.owner_decls {outer : Scope} {id : ContainerId} {container : Container}
    (listed : entry ∈ container.decls outer id) : id ≤ entry.1.owner ∧ entry.1.owner < id + container.count := by
  have placed := List.mem_map_of_mem (f := Prod.fst) (container.scope_decls outer id entry listed)
  rw [Typing.scopes_numbers, List.mem_range'_1] at placed
  exact placed

theorem Member.owner_declsAll {scope : Scope} {id next : ContainerId} {members : List Member}
    (listed : entry ∈ Member.declsAll scope id next members) :
    entry.1.owner = id ∧ entry.1.name ∈ members.filterMap (·.name?) ∨
      next ≤ entry.1.owner ∧ entry.1.owner < next + Member.countAll members := by
  refine (Member.scope_declsAll scope id next members entry listed).imp (fun own => ⟨own.1, own.2.2⟩) ?_
  intro placed
  have numbered := List.mem_map_of_mem (f := Prod.fst) placed
  rw [Typing.scopesAll_numbers, List.mem_range'_1] at numbered
  exact numbered

mutual

/-- The keys of the members differ. -/
theorem Container.nodup_decls (outer : Scope) (id : ContainerId) : ∀ (container : Container),
    container.Distinct → ((container.decls outer id).map (·.1)).Nodup
  | .mk _ _ _ _ _ members, distinct => by
    rw [Container.Distinct] at distinct
    rw [Container.decls]
    exact Member.nodup_declsAll _ (Nat.lt_succ_self id) members (List.nodup_append.mp distinct.1).2.1 distinct.2

theorem Member.nodup_declsAll {id next : ContainerId} (scope : Scope) (behind : id < next) :
    ∀ (members : List Member), (members.filterMap (·.name?)).Nodup → Member.DistinctAll members →
      ((Member.declsAll scope id next members).map (·.1)).Nodup
  | [], _, _ => List.nodup_nil
  | .container decl :: rest, nodup, distinct => by
    rw [Member.DistinctAll] at distinct
    rw [Member.declsAll, List.map_append]
    have names := (List.nodup_cons.mp nodup).2
    have further := Nat.lt_add_right decl.count behind
    refine List.nodup_append.mpr ⟨decl.nodup_decls _ _ distinct.1,
      Member.nodup_declsAll scope further rest names distinct.2, ?_⟩
    rintro key listed other present rfl
    obtain ⟨entry, inner, rfl⟩ := List.mem_map.mp listed
    obtain ⟨twin, outer, same⟩ := List.mem_map.mp present
    have lower := Container.owner_decls inner
    have upper := Member.owner_declsAll outer
    rw [same] at upper
    rcases upper with ⟨own, -⟩ | later
    · exact Nat.not_le_of_lt behind (own ▸ lower.1)
    · exact Nat.not_lt_of_le later.1 lower.2
  | .val decl :: rest, nodup, distinct | .func decl :: rest, nodup, distinct
  | .foreign decl :: rest, nodup, distinct => by
    obtain ⟨fresh, names⟩ := List.nodup_cons.mp nodup
    simp only [Member.DistinctAll] at distinct
    refine List.nodup_cons.mpr ⟨fun listed => ?_, Member.nodup_declsAll scope behind rest names distinct⟩
    obtain ⟨twin, outer, same⟩ := List.mem_map.mp listed
    have upper := Member.owner_declsAll outer
    rw [same] at upper
    rcases upper with ⟨-, again⟩ | later
    · exact fresh again
    · exact Nat.not_lt_of_le later.1 behind
  | .imports _ :: rest, nodup, distinct | .expr _ _ :: rest, nodup, distinct => by
    simp only [Member.DistinctAll] at distinct
    exact Member.nodup_declsAll scope behind rest nodup distinct

end

namespace Container

variable {items others : List Container}

theorem Reorders.numbers (reorders : List.Forall₂ Container.Reorders items others) (next : ContainerId) :
    numbers next others = numbers next items := by
  induction reorders generalizing next with
  | nil => rfl
  | cons own _ ih => rw [Container.numbers, Container.numbers, ih, own.count]

theorem Reorders.tables (reorders : List.Forall₂ Container.Reorders items others)
    (distinct : ∀ item ∈ items, item.Distinct) (next : ContainerId) :
    List.Forall₂ ContainerSymbol.Alike (tables next items) (tables next others) := by
  induction reorders generalizing next with
  | nil => exact .nil
  | cons own _ ih =>
    rw [List.forall_mem_cons] at distinct
    rw [Container.tables, Container.tables, own.count, own.matches.name]
    exact List.rel_append (own.table _ distinct.1 none next) (ih distinct.2 _)

theorem Reorders.declsAll (reorders : List.Forall₂ Container.Reorders items others) (unit : Scope)
    (next : ContainerId) : (declsAll unit next others).Perm (declsAll unit next items) := by
  induction reorders generalizing next with
  | nil => exact .refl _
  | cons own _ ih =>
    rw [Container.declsAll, Container.declsAll, own.count]
    exact (own.decls unit next).append (ih _)

theorem Reorders.names (reorders : List.Forall₂ Container.Reorders items others) :
    others.map (·.name) = items.map (·.name) := by
  induction reorders with
  | nil => rfl
  | cons own _ ih => rw [List.map_cons, List.map_cons, ih, own.matches.name]

theorem Reorders.distincts (reorders : List.Forall₂ Container.Reorders items others)
    (distinct : ∀ item ∈ items, item.Distinct) : ∀ item ∈ others, item.Distinct := by
  induction reorders with
  | nil => exact fun _ listed => by cases listed
  | cons own _ ih =>
    rw [List.forall_mem_cons] at distinct
    exact List.forall_mem_cons.mpr ⟨own.distinct distinct.1, ih distinct.2⟩

theorem behind_declsAll {unit : Scope} {next : ContainerId} (listed : entry ∈ declsAll unit next items) :
    next ≤ entry.1.owner := by
  induction items generalizing next with
  | nil => cases listed
  | cons item rest ih =>
    rw [declsAll, List.mem_append] at listed
    rcases listed with own | later
    · exact (owner_decls own).1
    · exact Nat.le_trans (Nat.le_add_right _ _) (ih later)

theorem nodup_declsAll (unit : Scope) (next : ContainerId) (distinct : ∀ item ∈ items, item.Distinct) :
    ((declsAll unit next items).map (·.1)).Nodup := by
  induction items generalizing next with
  | nil => exact List.nodup_nil
  | cons item rest ih =>
    rw [List.forall_mem_cons] at distinct
    rw [declsAll, List.map_append]
    refine List.nodup_append.mpr ⟨item.nodup_decls unit next distinct.1, ih _ distinct.2, ?_⟩
    rintro key listed other present rfl
    obtain ⟨entry, own, rfl⟩ := List.mem_map.mp listed
    obtain ⟨twin, later, same⟩ := List.mem_map.mp present
    have lower := behind_declsAll later
    rw [same] at lower
    exact Nat.not_lt_of_le lower (owner_decls own).2

end Container

/-- Where the keys differ, an entry is found whatever the order. -/
theorem lookup_of_perm [BEq κ] [LawfulBEq κ] {entries others : List (κ × α)} (perm : others.Perm entries)
    (nodup : (entries.map (·.1)).Nodup) (key : κ) : others.lookup key = entries.lookup key := by
  induction perm with
  | nil => rfl
  | cons first _ ih =>
    rw [List.lookup_cons, List.lookup_cons, ih (List.nodup_cons.mp nodup).2]
  | swap first second rest =>
    have differ : second.1 ≠ first.1 := by
      intro same
      simp [same] at nodup
    obtain ⟨one, _⟩ := first
    obtain ⟨two, _⟩ := second
    rw [List.lookup_cons, List.lookup_cons, List.lookup_cons, List.lookup_cons]
    by_cases here : key = one
    · have there : (key == two) = false := beq_eq_false_iff_ne.mpr (here ▸ differ.symm)
      simp [there]
    · have there : (key == one) = false := beq_eq_false_iff_ne.mpr here
      simp [there]
  | trans first second ihFirst ihSecond =>
    rw [ihFirst ((second.map _).nodup_iff.mpr nodup), ihSecond nodup]

theorem getD_of_forall₂ {R : α → α → Prop} {one two : List α} (related : List.Forall₂ R one two) {a : α}
    (default : R a a) (i : Nat) : R (one[i]?.getD a) (two[i]?.getD a) := by
  induction related generalizing i with
  | nil => exact default
  | cons first _ ih =>
    cases i with
    | zero => exact first
    | succ i => exact ih i

namespace Symbols

variable {S : Symbols} {one two : List ContainerSymbol}

theorem get_alike (tables : List.Forall₂ ContainerSymbol.Alike one two) (id : ContainerId) :
    ((S.extend one).get id).Alike ((S.extend two).get id) := by
  by_cases old : id < S.containers.size
  · rw [get_extend_old old, get_extend_old old]
    exact .refl _
  · obtain ⟨i, rfl⟩ := Nat.exists_eq_add_of_le (Nat.le_of_not_lt old)
    rw [get_extend_new, get_extend_new]
    exact getD_of_forall₂ tables (.refl _) i

theorem member?_alike (tables : List.Forall₂ ContainerSymbol.Alike one two) (key : MemberKey) :
    (S.extend two).member? key = (S.extend one).member? key :=
  (get_alike tables key.owner).found key.name

theorem alike_extend (tables : List.Forall₂ ContainerSymbol.Alike one two) :
    (S.extend one).Alike (S.extend two) where
  isClass id := by rw [(get_alike tables id).same]
  member? key := by rw [member?_alike tables]
  conversions id := by
    unfold Typing.ownConversions
    rw [(get_alike tables id).conversions]

end Symbols

end ScriptShell
