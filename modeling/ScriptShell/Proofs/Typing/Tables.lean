import Mathlib.Data.List.Nodup
import ScriptShell.Proofs.Typing.Declarations

/-! What a declaration leaves, told in full. A container takes the next number and those nested in it the
numbers behind, in the order they are written; each has one symbol for every parameter and for every named
member. So the symbols of a unit can be written down from its text, with no state in between, and a unit is
refused at this point only if a name is given twice. -/
namespace ScriptShell

mutual

/-- How many containers are declared by one. -/
def Container.count : Container → Nat
  | .mk _ _ _ _ _ members => 1 + Member.countAll members

/-- How many containers are declared by members. -/
def Member.countAll : List Member → Nat
  | [] => 0
  | .container decl :: rest => decl.count + Member.countAll rest
  | _ :: rest => Member.countAll rest

end

/-- The slots that a value takes in the objects of a class. -/
def ValDecl.slots (isClass : Bool) (decl : ValDecl) : Nat :=
  if isClass then
    match decl.mode with
    | .inline => 0
    | .lazy => 2
    | .strict => 1
  else 0

/-- The symbol that a value is declared with, where `slot` is the next one of its class. -/
def ValDecl.symbol (isClass : Bool) (qualified : String) (slot : Nat) (decl : ValDecl) : MemberSymbol :=
  { name := decl.name, kind := decl.mode.kind, implicit := decl.implicit,
    symbol := qualified ++ "." ++ decl.name,
    slot := if isClass ∧ decl.mode ≠ .inline then some slot else none,
    flagSlot := if isClass ∧ decl.mode = .lazy then some (slot + 1) else none }

/-- The symbol that a function is declared with. -/
def DefDecl.symbol (qualified : String) (decl : DefDecl) : MemberSymbol :=
  { name := decl.name, kind := .func, implicit := decl.implicit, parens := decl.parens,
    symbol := qualified ++ "." ++ decl.name }

/-- The symbol that a foreign function is declared with. -/
def ForeignDecl.symbol (decl : ForeignDecl) : MemberSymbol :=
  { name := decl.name, kind := .foreign, symbol := decl.name }

/-- The symbol of a container as a member of another one. -/
def Container.symbol (decl : Container) (id : ContainerId) : MemberSymbol :=
  { name := decl.name, kind := .container, nested := some id }

/-- The symbols of constructor parameters, the first of which takes the given slot. -/
def ParamDecl.symbols (qualified : String) (slot : Nat) : List ParamDecl → List MemberSymbol
  | [] => []
  | param :: rest =>
    { name := param.name, kind := .val, isParam := true, slot := some slot,
      symbol := qualified ++ "." ++ param.name } :: ParamDecl.symbols qualified (slot + 1) rest

namespace Member

/-- The name a member is found under. -/
def name? : Member → Option String
  | .val decl => some decl.name
  | .func decl => some decl.name
  | .foreign decl => some decl.name
  | .container decl => some decl.name
  | .imports _ | .expr _ _ => none

/-- How many containers are declared by a member. -/
def count : Member → Nat
  | .container decl => decl.count
  | _ => 0

/-- The slots that a member takes. -/
def slots (isClass : Bool) : Member → Nat
  | .val decl => decl.slots isClass
  | _ => 0

/-- The slots that members take. -/
def slotsAll (isClass : Bool) : List Member → Nat
  | [] => 0
  | member :: rest => member.slots isClass + slotsAll isClass rest

/-- The symbol of a member, where `slot` is the next slot and `next` the next number. -/
def symbol? (isClass : Bool) (qualified : String) (slot : Nat) (next : ContainerId) :
    Member → Option MemberSymbol
  | .val decl => some (decl.symbol isClass qualified slot)
  | .func decl => some (decl.symbol qualified)
  | .foreign decl => some decl.symbol
  | .container decl => some (decl.symbol next)
  | .imports _ | .expr _ _ => none

/-- The symbols of members. -/
def symbols (isClass : Bool) (qualified : String) (slot : Nat) (next : ContainerId) :
    List Member → List MemberSymbol
  | [] => []
  | member :: rest => (member.symbol? isClass qualified slot next).toList ++
      symbols isClass qualified (slot + member.slots isClass) (next + member.count) rest

/-- A member with a body, under its key. -/
def decl? (scope : Scope) (id : ContainerId) : Member → Option (MemberKey × PendingDecl)
  | .val decl => some (⟨id, decl.name⟩, ⟨.val decl, scope⟩)
  | .func decl => some (⟨id, decl.name⟩, ⟨.func decl, scope⟩)
  | .foreign decl => some (⟨id, decl.name⟩, ⟨.foreign decl, scope⟩)
  | _ => none

theorem countAll_cons (member : Member) (members : List Member) :
    countAll (member :: members) = member.count + countAll members := by
  cases member <;> simp [countAll, count]

end Member

/-- The path of a container that stands in another one, or at the top. -/
def Container.pathIn (outer : Option String) (name : String) : String :=
  match outer with
  | some outer => outer ++ "." ++ name
  | none => name

mutual

/-- The symbols of a container and of those nested in it, from the number `next` on. -/
def Container.table (artifact : String) (outer : Option String) (next : ContainerId) :
    Container → List ContainerSymbol
  | .mk _ kind name _ params members =>
    { isClass := kind = .classKind, name, qualified := Container.pathIn outer name, artifact,
      members := ParamDecl.symbols (Container.pathIn outer name) 1 params ++
        Member.symbols (kind = .classKind) (Container.pathIn outer name) (1 + params.length) (next + 1) members,
      slotCount := 1 + params.length + Member.slotsAll (kind = .classKind) members } ::
        Member.tableAll artifact (Container.pathIn outer name) (next + 1) members

/-- The symbols of the containers among members. -/
def Member.tableAll (artifact : String) (outer : String) (next : ContainerId) :
    List Member → List ContainerSymbol
  | [] => []
  | .container decl :: rest =>
    decl.table artifact (some outer) next ++ Member.tableAll artifact outer (next + decl.count) rest
  | _ :: rest => Member.tableAll artifact outer next rest

end

mutual

/-- The members with bodies of a container and of those nested in it. -/
def Container.decls (outer : Scope) (id : ContainerId) : Container → Typing.Declared
  | .mk _ _ _ _ _ members => Member.declsAll (Typing.containerFrame id members :: outer) id (id + 1) members

/-- The members with bodies among members and in the containers among them. -/
def Member.declsAll (scope : Scope) (id next : ContainerId) : List Member → Typing.Declared
  | [] => []
  | .container decl :: rest =>
    decl.decls scope next ++ Member.declsAll scope id (next + decl.count) rest
  | member :: rest => (member.decl? scope id).toList ++ Member.declsAll scope id next rest

end

mutual

/-- The names of each container differ. -/
def Container.Distinct : Container → Prop
  | .mk _ _ _ _ params members =>
    (params.map (·.name) ++ members.filterMap (·.name?)).Nodup ∧ Member.DistinctAll members

/-- The names of each container among members differ. -/
def Member.DistinctAll : List Member → Prop
  | [] => True
  | .container decl :: rest => decl.Distinct ∧ Member.DistinctAll rest
  | _ :: rest => Member.DistinctAll rest

end

namespace Container

/-- The numbers of the items of a unit. -/
def numbers (next : ContainerId) : List Container → List ContainerId
  | [] => []
  | item :: rest => next :: numbers (next + item.count) rest

/-- The symbols of the containers of a unit. -/
def tables (next : ContainerId) : List Container → List ContainerSymbol
  | [] => []
  | item :: rest => item.table item.name none next ++ tables (next + item.count) rest

/-- The members with bodies of a unit. -/
def declsAll (unit : Scope) (next : ContainerId) : List Container → Typing.Declared
  | [] => []
  | item :: rest => item.decls unit next ++ declsAll unit (next + item.count) rest

theorem length_numbers (next : ContainerId) (items : List Container) :
    (numbers next items).length = items.length := by
  induction items generalizing next with
  | nil => rfl
  | cons item rest ih => rw [numbers, List.length_cons, List.length_cons, ih]

end Container

mutual

theorem Container.length_table (artifact : String) (outer : Option String) (next : ContainerId) :
    ∀ container : Container, (container.table artifact outer next).length = container.count
  | .mk _ _ _ _ _ members => by
    rw [Container.table, Container.count, List.length_cons, Member.length_tableAll, Nat.add_comm]

theorem Member.length_tableAll (artifact outer : String) (next : ContainerId) : ∀ members : List Member,
    (Member.tableAll artifact outer next members).length = Member.countAll members
  | [] => rfl
  | .container decl :: rest => by
    rw [Member.tableAll, Member.countAll, List.length_append, Container.length_table,
      Member.length_tableAll]
  | .imports _ :: rest | .val _ :: rest | .func _ :: rest | .foreign _ :: rest | .expr _ _ :: rest => by
    simp only [Member.tableAll, Member.countAll]
    exact Member.length_tableAll artifact outer next rest

end

namespace Symbols

variable {S : Symbols} {id : ContainerId}

/-- Further containers. -/
def extend (S : Symbols) (more : List ContainerSymbol) : Symbols := ⟨S.containers ++ more.toArray⟩

/-- Further members of a container, which take so many slots. -/
def put (S : Symbols) (id : ContainerId) (more : List MemberSymbol) (slots : Nat) : Symbols :=
  S.modify id fun container =>
    { container with members := container.members ++ more, slotCount := container.slotCount + slots }

@[simp] theorem size_extend (S : Symbols) (more : List ContainerSymbol) :
    (S.extend more).containers.size = S.containers.size + more.length := by
  simp [extend]

@[simp] theorem size_put (S : Symbols) (id : ContainerId) (more : List MemberSymbol) (slots : Nat) :
    (S.put id more slots).containers.size = S.containers.size :=
  size_modify S id _

@[simp] theorem extend_nil (S : Symbols) : S.extend [] = S := by
  simp [extend]

@[simp] theorem extend_extend (S : Symbols) (one two : List ContainerSymbol) :
    (S.extend one).extend two = S.extend (one ++ two) := by
  simp [extend]

theorem get_extend_old (old : id < S.containers.size) (more : List ContainerSymbol) :
    (S.extend more).get id = S.get id := by
  unfold get extend
  rw [Array.getD_eq_getD_getElem?, Array.getElem?_append_left old, Array.getD_eq_getD_getElem?]

theorem get_extend_new (S : Symbols) (more : List ContainerSymbol) (i : Nat) :
    (S.extend more).get (S.containers.size + i) = more[i]?.getD {} := by
  unfold get extend
  rw [Array.getD_eq_getD_getElem?, Array.getElem?_append_right (Nat.le_add_right _ _)]
  simp

theorem get_last (S : Symbols) (container : ContainerSymbol) :
    (S.extend [container]).get S.containers.size = container :=
  get_extend_new S [container] 0

theorem get_put (inside : id < S.containers.size) (more : List MemberSymbol) (slots : Nat) :
    (S.put id more slots).get id = { S.get id with
      members := (S.get id).members ++ more, slotCount := (S.get id).slotCount + slots } :=
  get_modify_self inside _

theorem push_extend (S : Symbols) (container : ContainerSymbol) :
    (S.push container).2 = S.extend [container] :=
  congrArg Symbols.mk Array.push_eq_append

@[simp] theorem put_nil (S : Symbols) (id : ContainerId) : S.put id [] 0 = S := by
  unfold put modify
  congr 1
  apply Array.ext_getElem?
  intro i
  rw [Array.getElem?_modify]
  split <;> simp

@[simp] theorem put_put (S : Symbols) (id : ContainerId) (one two : List MemberSymbol) (m n : Nat) :
    (S.put id one m).put id two n = S.put id (one ++ two) (m + n) := by
  unfold put modify
  congr 1
  apply Array.ext_getElem?
  intro i
  simp only [Array.getElem?_modify]
  split
  · cases S.containers[i]? <;> simp [Nat.add_assoc]
  · rfl

theorem put_extend (inside : id < S.containers.size) (more : List ContainerSymbol)
    (members : List MemberSymbol) (slots : Nat) :
    (S.extend more).put id members slots = (S.put id members slots).extend more := by
  unfold put modify extend
  congr 1
  apply Array.ext_getElem?
  intro i
  simp only [Array.getElem?_modify, Array.getElem?_append, Array.size_modify]
  by_cases same : id = i
  · subst same
    simp [inside]
  · simp [same]

/-- The members of a container that was just added. -/
theorem put_last (S : Symbols) (container : ContainerSymbol) (members : List MemberSymbol) (slots : Nat) :
    (S.extend [container]).put S.containers.size members slots = S.extend [{ container with
      members := container.members ++ members, slotCount := container.slotCount + slots }] := by
  unfold put modify extend
  congr 1
  apply Array.ext_getElem?
  intro i
  simp only [Array.getElem?_modify, Array.getElem?_append]
  by_cases old : i < S.containers.size
  · simp [old, Nat.ne_of_gt old]
  · by_cases same : S.containers.size = i
    · subst same
      simp
    · have outside : i - S.containers.size ≠ 0 := by omega
      simp [old, same, outside]

end Symbols

namespace Typing

variable {σ : Type} {s s' : Checking σ} {id : ContainerId}

/-- The names of the members of a container. -/
def memberNames (S : Symbols) (id : ContainerId) : List String := (S.get id).members.map (·.name)

theorem takeSlot_eq (id : ContainerId) (s : Checking σ) : takeSlot id s =
    .ok (s.symbols.get id).slotCount { s with symbols := s.symbols.put id [] 1 } := by
  have same : s.symbols.put id [] 1 = s.symbols.modify id fun container =>
      { container with slotCount := (s.symbols.get id).slotCount + 1 } := by
    unfold Symbols.put Symbols.modify
    congr 1
    apply Array.ext_getElem?
    intro i
    simp only [Array.getElem?_modify]
    split
    next here =>
      subst here
      cases found : s.symbols.containers[id]? <;>
        simp [Symbols.get, Array.getD_eq_getD_getElem?, found]
    next => rfl
  rw [same]
  rfl

theorem memberSymbol_eq (id : ContainerId) (name : String) (s : Checking σ) :
    memberSymbol id name s = .ok ((s.symbols.get id).qualified ++ "." ++ name) s :=
  rfl

theorem valSymbol_eq (inside : id < s.symbols.containers.size) (decl : ValDecl) :
    (valSymbol id decl : Check σ MemberSymbol) s = .ok
      (decl.symbol (s.symbols.get id).isClass (s.symbols.get id).qualified (s.symbols.get id).slotCount)
      { s with symbols := s.symbols.put id [] (decl.slots (s.symbols.get id).isClass) } := by
  have read : (Check.symbols : Check σ Symbols) s = .ok s.symbols s := rfl
  rw [valSymbol, Check.bind_of_ok (memberSymbol_eq id decl.name s), Check.bind_of_ok read]
  unfold ValDecl.symbol ValDecl.slots
  cases mode : decl.mode <;> cases stored : (s.symbols.get id).isClass
  case lazy.true =>
    dsimp only
    rw [if_pos rfl, Check.bind_of_ok (takeSlot_eq id s), Check.bind_of_ok (takeSlot_eq id _), Symbols.get_put inside,
      Symbols.put_put]
    rfl
  case strict.true =>
    dsimp only
    rw [if_pos rfl, Check.bind_of_ok (takeSlot_eq id s)]
    rfl
  all_goals
    show EStateM.Result.ok _ s = .ok _ { s with symbols := s.symbols.put id [] 0 }
    rw [Symbols.put_nil]
    rfl

/-- A member is added unless there is one of its name. -/
theorem addMember_iff {member : MemberSymbol} {f : Unit → Check σ β} {b : β} :
    (addMember id span member >>= f) s = .ok b s' ↔ member.name ∉ memberNames s.symbols id ∧
      f () { s with symbols := s.symbols.put id [member] 0 } = .ok b s' := by
  have fresh : ¬ ((s.symbols.get id).find? member.name).isSome = true ↔
      member.name ∉ memberNames s.symbols id := by
    simp only [ContainerSymbol.find?, memberNames, List.find?_isSome, List.mem_map, decide_eq_true_eq]
  rw [← fresh, addMember]
  simp only [Check.bind_ok, Check.symbols_ok, Check.guard_ok, Check.modify_ok]
  constructor
  · rintro ⟨_, _, ⟨_, _, ⟨rfl, rfl⟩, absent, rfl⟩, run⟩
    exact ⟨absent, run⟩
  · rintro ⟨absent, run⟩
    exact ⟨_, _, ⟨_, _, ⟨rfl, rfl⟩, absent, rfl⟩, run⟩

theorem nodup_next {taken rest : List String} {name : String} :
    (taken ++ name :: rest).Nodup ↔ name ∉ taken ∧ (taken ++ [name] ++ rest).Nodup := by
  rw [List.append_assoc, List.singleton_append]
  refine ⟨fun nodup => ⟨fun listed => ?_, nodup⟩, fun both => both.2⟩
  exact (List.nodup_append.mp nodup).2.2 name listed name List.mem_cons_self rfl

theorem memberNames_put (inside : id < S.containers.size) (more : List MemberSymbol) (slots : Nat) :
    memberNames (S.put id more slots) id = memberNames S id ++ more.map (·.name) := by
  unfold memberNames
  rw [Symbols.get_put inside, List.map_append]

theorem nodup_put {name : String} {member : MemberSymbol} (inside : id < S.containers.size) (slots : Nat)
    (named : member.name = name) (fresh : name ∉ memberNames S id) (nodup : (memberNames S id).Nodup) :
    (memberNames (S.put id [member] slots) id).Nodup := by
  rw [memberNames_put inside, List.map_singleton, named, ← List.concat_eq_append]
  exact List.Nodup.concat fresh nodup

theorem declareParams_iff (inside : id < s.symbols.containers.size) (nodup : (memberNames s.symbols id).Nodup)
    (span : Span) (params : List ParamDecl) (u : Unit) (s' : Checking σ) :
    (declareParams id span params : Check σ Unit) s = .ok u s' ↔
      (memberNames s.symbols id ++ params.map (·.name)).Nodup ∧ s' = { s with
        symbols := s.symbols.put id (ParamDecl.symbols (s.symbols.get id).qualified
          (s.symbols.get id).slotCount params) params.length } := by
  induction params generalizing s with
  | nil =>
    simp only [declareParams, Check.pure_ok, ParamDecl.symbols, List.map_nil, List.append_nil, List.length_nil,
      Symbols.put_nil]
    exact ⟨fun done => ⟨nodup, done.2.symm⟩, fun done => ⟨trivial, done.2.symm⟩⟩
  | cons param rest ih =>
    have names : memberNames (s.symbols.put id [] 1) id = memberNames s.symbols id := by
      rw [memberNames_put inside, List.map_nil, List.append_nil]
    rw [List.map_cons, nodup_next, declareParams, Check.bind_of_ok (takeSlot_eq id s),
      Check.bind_of_ok (memberSymbol_eq id param.name _), addMember_iff, names, and_assoc]
    refine and_congr_right fun fresh => ?_
    rw [ih]
    · simp only [Symbols.put_put, memberNames_put inside, Symbols.get_put inside, ParamDecl.symbols,
        List.nil_append, List.singleton_append, List.map_cons, List.map_nil, Nat.add_zero, List.length_cons,
        Nat.add_comm rest.length]
    · simpa using inside
    · rw [Symbols.put_put]
      exact nodup_put inside _ rfl fresh nodup

/-- What is declared is known beforehand. -/
def DeclaresTable (σ : Type) (owner : Option ContainerId) (outer : Scope) (artifact : String)
    (container : Container) : Prop :=
  ∀ (s s' : Checking σ) (id : ContainerId) (declared : Declared),
    declareContainer owner outer artifact container s = .ok (id, declared) s' ↔
      container.Distinct ∧ id = s.symbols.containers.size ∧ declared = container.decls outer id ∧ s' = { s with
        symbols := s.symbols.extend (container.table artifact
          (owner.map fun owner => (s.symbols.get owner).qualified) id) }

/-- What members add to their container, and behind it, is known beforehand. -/
def DeclaresTables (σ : Type) (id : ContainerId) (scope : Scope) (artifact : String)
    (members : List Member) : Prop :=
  ∀ (s s' : Checking σ) (declared : Declared), id < s.symbols.containers.size →
    (memberNames s.symbols id).Nodup →
    (declareMembers id scope artifact members s = .ok declared s' ↔
      (memberNames s.symbols id ++ members.filterMap (·.name?)).Nodup ∧ Member.DistinctAll members ∧
        declared = Member.declsAll scope id s.symbols.containers.size members ∧ s' = { s with
          symbols := (s.symbols.put id (Member.symbols (s.symbols.get id).isClass (s.symbols.get id).qualified
            (s.symbols.get id).slotCount s.symbols.containers.size members)
            (Member.slotsAll (s.symbols.get id).isClass members)).extend
              (Member.tableAll artifact (s.symbols.get id).qualified s.symbols.containers.size members) })

section

variable {scope : Scope} {artifact : String} {rest : List Member} {declared : Declared}

theorem memberNames_extend (old : id < S.containers.size) (more : List ContainerSymbol) :
    memberNames (S.extend more) id = memberNames S id := by
  unfold memberNames
  rw [Symbols.get_extend_old old]

/-- A member that is no container adds its symbol, in front of those of the others. -/
theorem declaresTables_cons (ih : DeclaresTables σ id scope artifact rest)
    (inside : id < s.symbols.containers.size) (nodup : (memberNames s.symbols id).Nodup)
    (span : Span) (member : MemberSymbol) (slots : Nat) (entry : MemberKey × PendingDecl) :
    (do
        addMember id span member
        return entry :: (← declareMembers id scope artifact rest) : Check σ Declared)
        { s with symbols := s.symbols.put id [] slots } = .ok declared s' ↔
      (memberNames s.symbols id ++ member.name :: rest.filterMap (·.name?)).Nodup ∧ Member.DistinctAll rest ∧
        declared = entry :: Member.declsAll scope id s.symbols.containers.size rest ∧ s' = { s with
          symbols := (s.symbols.put id (member :: Member.symbols (s.symbols.get id).isClass
            (s.symbols.get id).qualified ((s.symbols.get id).slotCount + slots) s.symbols.containers.size rest)
            (slots + Member.slotsAll (s.symbols.get id).isClass rest)).extend
              (Member.tableAll artifact (s.symbols.get id).qualified s.symbols.containers.size rest) } := by
  have names : memberNames (s.symbols.put id [] slots) id = memberNames s.symbols id := by
    rw [memberNames_put inside, List.map_nil, List.append_nil]
  rw [addMember_iff, names, nodup_next, and_assoc]
  refine and_congr_right fun fresh => ?_
  have further (more : Declared) (t : Checking σ) := ih
    { s with symbols := s.symbols.put id [member] slots } t more (by simpa using inside)
    (nodup_put inside _ rfl fresh nodup)
  simp only [memberNames_put inside, Symbols.get_put inside, Symbols.put_put, Symbols.size_put, List.map_cons,
    List.map_nil, List.nil_append, List.singleton_append, Nat.add_zero] at further ⊢
  simp only [Check.bind_ok, Check.pure_ok, further]
  constructor
  · rintro ⟨_, _, ⟨distinct, inner, rfl, rfl⟩, rfl, rfl⟩
    exact ⟨distinct, inner, rfl, rfl⟩
  · rintro ⟨distinct, inner, rfl, rfl⟩
    exact ⟨_, _, ⟨distinct, inner, rfl, rfl⟩, rfl, rfl⟩

theorem declaresTables_container (own : DeclaresTable σ (some id) scope artifact decl)
    (ih : DeclaresTables σ id scope artifact rest) :
    DeclaresTables σ id scope artifact (.container decl :: rest) := by
  intro s s' declared inside nodup
  have old (more : List ContainerSymbol) : id < (s.symbols.extend more).containers.size := by
    rw [Symbols.size_extend]
    exact Nat.lt_add_right _ inside
  have step : declareMembers id scope artifact (.container decl :: rest) s = .ok declared s' ↔
      decl.Distinct ∧ (addMember id decl.span (decl.symbol s.symbols.containers.size) >>= fun _ => do
        return decl.decls scope s.symbols.containers.size ++ (← declareMembers id scope artifact rest))
        { s with symbols := s.symbols.extend (decl.table artifact (some (s.symbols.get id).qualified)
          s.symbols.containers.size) } = .ok declared s' := by
    rw [declareMembers, Check.bind_ok]
    constructor
    · rintro ⟨⟨nested, inner⟩, t, first, more⟩
      obtain ⟨distinct, rfl, rfl, rfl⟩ := (own s t nested inner).mp first
      exact ⟨distinct, more⟩
    · rintro ⟨distinct, more⟩
      exact ⟨⟨_, _⟩, _, (own s _ _ _).mpr ⟨distinct, rfl, rfl, rfl⟩, more⟩
  have room : id < (s.symbols.put id [decl.symbol s.symbols.containers.size] 0).containers.size := by
    simpa using inside
  have names : (Member.container decl :: rest).filterMap (·.name?) = decl.name :: rest.filterMap (·.name?) := rfl
  have further (fresh : decl.name ∉ memberNames s.symbols id) (more : Declared) (t : Checking σ) := ih
    { s with
      symbols := (s.symbols.put id [decl.symbol s.symbols.containers.size] 0).extend
        (decl.table artifact (some (s.symbols.get id).qualified) s.symbols.containers.size) } t more
    (by simpa using Nat.lt_add_right _ inside)
    (by rw [memberNames_extend room]; exact nodup_put inside _ rfl fresh nodup)
  simp only [memberNames_extend room, memberNames_put inside, Symbols.get_extend_old room,
    Symbols.get_put inside, Symbols.put_extend room, Symbols.put_put, Symbols.extend_extend, Symbols.size_extend,
    Symbols.size_put, Container.length_table, List.map_cons, List.map_nil, List.singleton_append,
    Nat.add_zero, Nat.zero_add] at further
  have slots (isClass : Bool) : Member.slotsAll isClass (.container decl :: rest) =
      Member.slotsAll isClass rest := by
    simp [Member.slotsAll, Member.slots]
  rw [step, addMember_iff, memberNames_extend inside, Symbols.put_extend inside, names, nodup_next, slots,
    Member.DistinctAll, Member.declsAll, Member.tableAll]
  simp only [Check.bind_ok, Check.pure_ok]
  constructor
  · rintro ⟨own, fresh, others, _, more, rfl, rfl⟩
    obtain ⟨distinct, inner, rfl, rfl⟩ := (further fresh _ _).mp more
    exact ⟨⟨fresh, distinct⟩, ⟨own, inner⟩, rfl, rfl⟩
  · rintro ⟨⟨fresh, distinct⟩, ⟨own, inner⟩, rfl, rfl⟩
    exact ⟨own, fresh, _, _, (further fresh _ _).mpr ⟨distinct, inner, rfl, rfl⟩, rfl, rfl⟩

theorem names_paramSymbols (qualified : String) (slot : Nat) (params : List ParamDecl) :
    (ParamDecl.symbols qualified slot params).map (·.name) = params.map (·.name) := by
  induction params generalizing slot with
  | nil => rfl
  | cons param rest ih => rw [ParamDecl.symbols, List.map_cons, List.map_cons, ih]

/-- The parameters and members of a container that was just added. -/
theorem declareBody_iff {own : ContainerSymbol}
    (members : DeclaresTables σ s.symbols.containers.size scope artifact rest)
    (empty : own.members = []) :
    (do
        declareParams s.symbols.containers.size span params
        let declared ← declareMembers s.symbols.containers.size scope artifact rest
        return (s.symbols.containers.size, declared) : Check σ _)
        { s with symbols := s.symbols.extend [own] } = .ok (id, declared) s' ↔
      ((params.map (·.name) ++ rest.filterMap (·.name?)).Nodup ∧ Member.DistinctAll rest) ∧
        id = s.symbols.containers.size ∧
        declared = Member.declsAll scope s.symbols.containers.size (s.symbols.containers.size + 1) rest ∧
        s' = { s with
          symbols := s.symbols.extend ({ own with
            members := ParamDecl.symbols own.qualified own.slotCount params ++
              Member.symbols own.isClass own.qualified (own.slotCount + params.length)
                (s.symbols.containers.size + 1) rest,
            slotCount := own.slotCount + params.length + Member.slotsAll own.isClass rest } ::
              Member.tableAll artifact own.qualified (s.symbols.containers.size + 1) rest) } := by
  have room : s.symbols.containers.size < (s.symbols.extend [own]).containers.size := by simp
  have blank : memberNames (s.symbols.extend [own]) s.symbols.containers.size = [] := by
    rw [memberNames, Symbols.get_last, empty]
    rfl
  have first := declareParams_iff (s := { s with symbols := s.symbols.extend [own] }) room
    (blank ▸ List.nodup_nil) span params
  have second (nodup : (params.map (·.name)).Nodup) (more : Declared) (t : Checking σ) := members
    { s with
      symbols := s.symbols.extend [{ own with
        members := ParamDecl.symbols own.qualified own.slotCount params,
        slotCount := own.slotCount + params.length }] } t more (by simp)
    (by rw [memberNames, Symbols.get_last, names_paramSymbols]; exact nodup)
  simp only [blank, List.nil_append, Symbols.get_last, Symbols.put_last, empty] at first
  simp only [memberNames, Symbols.get_last, names_paramSymbols, Symbols.put_last, Symbols.extend_extend,
    Symbols.size_extend, List.length_singleton, List.singleton_append] at second
  simp only [Check.bind_ok, first, Check.pure_ok, Prod.mk.injEq]
  constructor
  · rintro ⟨_, _, ⟨nodup, rfl⟩, _, _, more, ⟨rfl, rfl⟩, rfl⟩
    obtain ⟨distinct, inner, rfl, rfl⟩ := (second nodup _ _).mp more
    exact ⟨⟨distinct, inner⟩, rfl, rfl, rfl⟩
  · rintro ⟨⟨distinct, inner⟩, rfl, rfl, rfl⟩
    have nodup := (List.nodup_append.mp distinct).1
    exact ⟨⟨⟩, _, ⟨nodup, rfl⟩, _, _, (second nodup _ _).mpr ⟨distinct, inner, rfl, rfl⟩, ⟨rfl, rfl⟩, rfl⟩

theorem declaresTable_mk (members : ∀ id, DeclaresTables σ id (containerFrame id own :: outer) artifact own) :
    DeclaresTable σ owner outer artifact (.mk span kind name exported params own) := by
  intro s s' id declared
  have step : declareContainer owner outer artifact (.mk span kind name exported params own) s = (do
      declareParams s.symbols.containers.size span params
      let declared ← declareMembers s.symbols.containers.size
        (containerFrame s.symbols.containers.size own :: outer) artifact own
      return (s.symbols.containers.size, declared))
      { s with
        symbols := s.symbols.extend [{
          isClass := decide (kind = ContainerKind.classKind), name, artifact,
          qualified := Container.pathIn (owner.map fun owner => (s.symbols.get owner).qualified) name }] } := by
    rw [← Symbols.push_extend, declareContainer]
    cases owner <;> rfl
  rw [step, declareBody_iff (members _) rfl, Container.Distinct, Container.decls]
  refine and_congr_right fun _ => and_congr_right ?_
  rintro rfl
  rw [Container.table]

/-- Declaration follows the text of a unit. -/
theorem declares_table (σ : Type) (artifact : String) :
    (∀ owner outer container, DeclaresTable σ owner outer artifact container) ∧
    ∀ id scope members, DeclaresTables σ id scope artifact members := by
  apply declareContainer.mutual_induct
  case case1 =>
    intro owner outer span kind name exported params own members
    exact declaresTable_mk members
  case case2 =>
    intro id scope s s' declared inside nodup
    rw [declareMembers]
    simp only [Check.pure_ok, List.filterMap_nil, List.append_nil, Member.DistinctAll, Member.declsAll,
      Member.symbols, Member.slotsAll, Member.tableAll, Symbols.put_nil,
      Symbols.extend_nil]
    exact ⟨fun done => ⟨nodup, trivial, done.1.symm, done.2.symm⟩, fun done => ⟨done.2.2.1.symm, done.2.2.2.symm⟩⟩
  case case3 =>
    intro id scope decl rest ih s s' declared inside nodup
    rw [declareMembers, Check.bind_of_ok (valSymbol_eq inside decl)]
    exact declaresTables_cons ih inside nodup _ _ _ _
  case case4 =>
    intro id scope decl rest ih s s' declared inside nodup
    rw [declareMembers, Check.bind_of_ok (memberSymbol_eq id decl.name s)]
    refine Iff.trans ?_ (declaresTables_cons ih inside nodup decl.span (decl.symbol (s.symbols.get id).qualified) 0
      (⟨id, decl.name⟩, ⟨.func decl, scope⟩))
    rw [Symbols.put_nil]
    rfl
  case case5 =>
    intro id scope decl rest ih s s' declared inside nodup
    rw [declareMembers]
    refine Iff.trans ?_ (declaresTables_cons ih inside nodup decl.span decl.symbol 0
      (⟨id, decl.name⟩, ⟨.foreign decl, scope⟩))
    rw [Symbols.put_nil]
    rfl
  case case6 =>
    intro id scope decl rest own ih
    exact declaresTables_container own ih
  case case7 =>
    intro id scope decl rest ih s s' declared inside nodup
    rw [declareMembers]
    refine (ih s s' declared inside nodup).trans ?_
    simp only [Member.slotsAll, Member.slots, Nat.zero_add]
    exact Iff.rfl
  case case8 =>
    intro id scope span value rest ih s s' declared inside nodup
    rw [declareMembers]
    refine (ih s s' declared inside nodup).trans ?_
    simp only [Member.slotsAll, Member.slots, Nat.zero_add]
    exact Iff.rfl

end

/-- The items of a unit are declared unless a name is given twice. -/
theorem declareItems_iff (unit : Scope) (before : List (String × ContainerId)) (items : List Container)
    (s s' : Checking σ) (named : List (String × ContainerId)) (declared : Declared)
    (nodup : (before.map (·.1)).Nodup) :
    (declareItems unit before items : Check σ _) s = .ok (named, declared) s' ↔
      (before.map (·.1) ++ items.map (·.name)).Nodup ∧ (∀ item ∈ items, item.Distinct) ∧
        named = before ++ (items.map (·.name)).zip (Container.numbers s.symbols.containers.size items) ∧
        declared = Container.declsAll unit s.symbols.containers.size items ∧
        s' = { s with
          symbols := s.symbols.extend (Container.tables s.symbols.containers.size items) } := by
  induction items generalizing s before named declared with
  | nil =>
    simp only [declareItems, Check.pure_ok, Prod.mk.injEq, Container.declsAll, Container.tables,
      Symbols.extend_nil, List.map_nil, List.append_nil, List.zip_nil_left]
    exact ⟨fun done => ⟨nodup, by simp, done.1.1.symm, done.1.2.symm, done.2.symm⟩,
      fun done => ⟨⟨done.2.2.1.symm, done.2.2.2.1.symm⟩, done.2.2.2.2.symm⟩⟩
  | cons item rest ih =>
    have fresh : ¬ (before.lookup item.name).isSome = true ↔ item.name ∉ before.map (·.1) := by
      simp only [Option.not_isSome_iff_eq_none, List.lookup_eq_none_iff, List.mem_map, not_exists, not_and,
        bne_iff_ne]
      exact forall₂_congr fun _ _ => ne_comm
    have further (absent : item.name ∉ before.map (·.1)) (named : List (String × ContainerId))
        (declared : Declared) := ih (before ++ [(item.name, s.symbols.containers.size)])
      { s with symbols := s.symbols.extend (item.table item.name none s.symbols.containers.size) } named declared (by
        rw [List.map_append, List.map_singleton, ← List.concat_eq_append]
        exact List.Nodup.concat absent nodup)
    simp only [List.map_append, List.map_cons, List.map_nil, Symbols.size_extend, Symbols.extend_extend,
      Container.length_table] at further
    simp only [declareItems, Check.guard_ok, fresh, Check.bind_ok, Check.pure_ok, Prod.mk.injEq]
    rw [List.map_cons, nodup_next, and_assoc, List.forall_mem_cons]
    refine and_congr_right fun absent => ?_
    constructor
    · rintro ⟨⟨id, own⟩, t, first, ⟨_, others⟩, _, more, ⟨rfl, rfl⟩, rfl⟩
      obtain ⟨distinct, rfl, rfl, rfl⟩ := ((declares_table σ item.name).1 none unit item s t id own).mp first
      obtain ⟨names, inner, rfl, rfl, rfl⟩ := (further absent _ _).mp more
      exact ⟨names, ⟨distinct, inner⟩, by simp [Container.numbers], rfl, rfl⟩
    · rintro ⟨names, ⟨distinct, inner⟩, rfl, rfl, rfl⟩
      refine ⟨⟨_, _⟩, _, ((declares_table σ item.name).1 none unit item s _ _ _).mpr ⟨distinct, rfl, rfl, rfl⟩,
        ⟨_, _⟩, _, (further absent _ _).mpr ⟨names, inner, rfl, rfl, rfl⟩, ⟨?_, rfl⟩, rfl⟩
      simp [Container.numbers]

end Typing

end ScriptShell
