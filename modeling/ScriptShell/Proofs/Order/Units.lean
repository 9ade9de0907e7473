import ScriptShell.Proofs.Order.Containers
import ScriptShell.Proofs.Order.Declarations

/-! Units whose functions are written in another order. Both checks start with the same members under the
same keys, and they are abreast up to the members of the containers; there the other one pursues the first
one and, once it has come through, is pursued by it. So the two end with the same types. -/
namespace ScriptShell

open Checking Typing

theorem lookup_of_listed [BEq κ] [LawfulBEq κ] {entries : List (κ × α)} {key : κ} {value : α}
    (nodup : (entries.map (·.1)).Nodup) (listed : (key, value) ∈ entries) : entries.lookup key = some value := by
  induction entries with
  | nil => cases listed
  | cons entry rest ih =>
    obtain ⟨other, own⟩ := entry
    obtain ⟨fresh, nodup⟩ := List.nodup_cons.mp nodup
    rcases List.mem_cons.mp listed with same | later
    · cases same
      exact List.lookup_cons_self
    · have differ : (key == other) = false := by
        refine beq_eq_false_iff_ne.mpr ?_
        rintro rfl
        exact fresh (List.mem_map.mpr ⟨_, later, rfl⟩)
      rw [List.lookup_cons, differ]
      exact ih nodup later

section Laid

variable {base : Nat} {imports : List Import} {items : List Container} {outer place : Scope}
  {id n : ContainerId} {container : Container} {members : List Member} {S : Symbols}

/-- The imports of a unit stand where they are written. -/
theorem laid_unit (base : Nat) (imports : List Import) (items : List Container) :
    Scope.Laid (unitHome base imports items) [importFrame none imports] := by
  refine ⟨fun own earlier suffix => ?_, trivial⟩
  obtain ⟨owner, found⟩ := importAt?_importFrame [] suffix
  unfold unitHome
  rw [owner]
  exact found

/-- The imports of a container stand where they are written. -/
theorem laid_frame (listed : (id, containerFrame id members :: outer) ∈ unitScopes base imports items)
    (laid : outer.Laid (unitHome base imports items)) :
    Scope.Laid (unitHome base imports items) (containerFrame id members :: outer) := by
  have nodup : ((unitScopes base imports items).map (·.1)).Nodup := by
    rw [unitScopes, scopesAll_numbers]
    exact List.nodup_range'
  refine ⟨fun own earlier suffix => ?_, laid⟩
  obtain ⟨owner, found⟩ := importAt?_importFrame outer suffix
  unfold unitHome
  rw [owner]
  show ((unitScopes base imports items).lookup id).bind _ = _
  rw [lookup_of_listed nodup listed]
  exact found

theorem Typing.Within.laid (within : Within S.child outer id container place n members)
    (numbers : S.Numbers id container) (among : container.scopes outer id ⊆ unitScopes base imports items)
    (laid : outer.Laid (unitHome base imports items)) : place.Laid (unitHome base imports items) := by
  induction within with
  | own =>
    rw [Container.scopes] at among
    exact laid_frame (among List.mem_cons_self) laid
  | nested listed _ ih =>
    rw [Container.scopes] at among
    simp only [Symbols.Numbers] at numbers
    obtain ⟨own, deeper⟩ := numbers.nested listed
    exact ih own (fun entry inner => among (List.mem_cons_of_mem _ (deeper _ inner)))
      (laid_frame (among List.mem_cons_self) laid)

end Laid

mutual

/-- Members with bodies stand in the places of a unit. -/
theorem Container.within_decls {S : Symbols} (outer : Scope) (id : ContainerId) : ∀ (container : Container),
    S.Numbers id container → ∀ entry ∈ container.decls outer id, ∃ members,
      Within S.child outer id container entry.2.scope entry.1.owner members ∧
        entry.2.member ∈ members ∧ entry.2.member.bodyName? = some entry.1.name
  | .mk _ _ _ _ _ members, numbers, entry, listed => by
    simp only [Symbols.Numbers] at numbers
    rw [Container.decls] at listed
    rcases Member.within_declsAll _ _ _ members numbers entry listed with ⟨rfl, scope, own⟩ | deeper
    · exact ⟨members, scope ▸ .own, own⟩
    · obtain ⟨inner, there, others, within, own⟩ := deeper
      exact ⟨others, .nested there within, own⟩

theorem Member.within_declsAll {S : Symbols} (scope : Scope) (id next : ContainerId) :
    ∀ (members : List Member), S.NumbersAll id next members →
      ∀ entry ∈ Member.declsAll scope id next members,
        (entry.1.owner = id ∧ entry.2.scope = scope ∧ entry.2.member ∈ members ∧
          entry.2.member.bodyName? = some entry.1.name) ∨
        ∃ inner, .container inner ∈ members ∧ ∃ others,
          Within S.child scope (S.child id inner.name) inner entry.2.scope entry.1.owner others ∧
            entry.2.member ∈ others ∧ entry.2.member.bodyName? = some entry.1.name
  | [], _, _, listed => by cases listed
  | .container decl :: rest, numbers, entry, listed => by
    have later := numbers
    simp only [Symbols.NumbersAll] at later
    rw [Member.declsAll, List.mem_append] at listed
    rcases listed with listed | listed
    · obtain ⟨⟨member, found, nested, own⟩, -⟩ := later
      have number : S.child id decl.name = next := by simp [Symbols.child, found, nested]
      exact .inr ⟨decl, List.mem_cons_self, number ▸ decl.within_decls scope next own entry listed⟩
    · rcases Member.within_declsAll scope id _ rest later.2 entry listed with own | deeper
      · exact .inl ⟨own.1, own.2.1, List.mem_cons_of_mem _ own.2.2.1, own.2.2.2⟩
      · obtain ⟨inner, there, within⟩ := deeper
        exact .inr ⟨inner, List.mem_cons_of_mem _ there, within⟩
  | .val decl :: rest, numbers, entry, listed | .func decl :: rest, numbers, entry, listed
  | .foreign decl :: rest, numbers, entry, listed => by
    simp only [Symbols.NumbersAll] at numbers
    rcases List.mem_cons.mp listed with rfl | listed
    · exact .inl ⟨rfl, rfl, List.mem_cons_self, rfl⟩
    · rcases Member.within_declsAll scope id next rest numbers entry listed with own | deeper
      · exact .inl ⟨own.1, own.2.1, List.mem_cons_of_mem _ own.2.2.1, own.2.2.2⟩
      · obtain ⟨inner, there, within⟩ := deeper
        exact .inr ⟨inner, List.mem_cons_of_mem _ there, within⟩
  | .imports _ :: rest, numbers, entry, listed | .expr _ _ :: rest, numbers, entry, listed => by
    simp only [Symbols.NumbersAll] at numbers
    rcases Member.within_declsAll scope id next rest numbers entry listed with own | deeper
    · exact .inl ⟨own.1, own.2.1, List.mem_cons_of_mem _ own.2.2.1, own.2.2.2⟩
    · obtain ⟨inner, there, within⟩ := deeper
      exact .inr ⟨inner, List.mem_cons_of_mem _ there, within⟩

end

theorem Container.item_of_declsAll {unit : Scope} {next : ContainerId} {items : List Container}
    (listed : entry ∈ Container.declsAll unit next items) :
    ∃ item ∈ items.zip (Container.numbers next items), entry ∈ item.1.decls unit item.2 := by
  induction items generalizing next with
  | nil => cases listed
  | cons item rest ih =>
    rw [Container.declsAll, List.mem_append] at listed
    rw [Container.numbers, List.zip_cons_cons]
    rcases listed with own | later
    · exact ⟨_, List.mem_cons_self, own⟩
    · obtain ⟨other, there, own⟩ := ih later
      exact ⟨other, List.mem_cons_of_mem _ there, own⟩

namespace Checking

variable {σ : Type}

theorem lookup_begun (decls : Declared) (key : MemberKey) :
    (decls.map fun entry => (entry.1, ({} : Progress))).lookup key = (decls.lookup key).map fun _ => {} := by
  induction decls with
  | nil => rfl
  | cons entry rest ih =>
    obtain ⟨other, own⟩ := entry
    rw [List.map_cons, List.lookup_cons, List.lookup_cons, ih]
    cases key == other <;> rfl

/-- The state behind the declarations. -/
def begun (T : Symbols) (decls : Declared) (host : σ) : Checking σ :=
  { symbols := T, progress := decls.map fun entry => (entry.1, {}), host }

theorem idle_begun (T : Symbols) (decls : Declared) (host : σ) : (begun T decls host).Idle := by
  intro key own found
  have listed : (decls.lookup key).map (fun _ => ({} : Progress)) = some own :=
    (lookup_begun decls key).symm.trans found
  obtain ⟨_, -, rfl⟩ := Option.map_eq_some_iff.mp listed
  exact .inl rfl

/-- At the start both checks know the same. -/
theorem level_begun {S : Symbols} {one two : List ContainerSymbol} {decls others : Declared}
    (tables : List.Forall₂ ContainerSymbol.Alike one two) (same : ∀ key, others.lookup key = decls.lookup key)
    (host host' : σ) : Level (begun (S.extend one) decls host) (begun (S.extend two) others host') := by
  have progress : ∀ key, (begun (S.extend two) others host').progress.lookup key =
      (begun (S.extend one) decls host).progress.lookup key := by
    intro key
    exact (lookup_begun others key).trans ((congrArg _ (same key)).trans (lookup_begun decls key).symm)
  constructor
  case alike => exact Symbols.alike_extend tables
  case params =>
    intro id
    show ((S.extend two).get id).params = ((S.extend one).get id).params
    rw [(Symbols.get_alike tables id).same]
  case listed => exact fun key => by rw [progress]
  case typed => exact fun key => by unfold Typed; rw [progress]
  case agree =>
    intro key _ own twin found present
    have again := (Symbols.member?_alike tables key).symm.trans present
    rw [show (S.extend one).member? key = some own from found, Option.some.injEq] at again
    exact again ▸ ⟨rfl, rfl⟩
  case cached => exact fun key => Iff.rfl
  case paths => exact fun _ _ _ none => by cases none

end Checking

namespace Window

variable {σ α β : Type} {w : Window σ} {s t s' : Checking σ} {unit : Scope}

/-- A place of a reordered container is one of the container itself, where the members stand in the order
they had. -/
theorem within_of_reorders {child : ContainerId → String → ContainerId} {outer place : Scope}
    {id n : ContainerId} {container other : Container} {others : List Member}
    (within : Within child outer id other place n others) (reorders : container.Reorders other) :
    ∃ members, Within child outer id container place n members ∧
      memberImports others = memberImports members ∧
      ∀ member ∈ others, (∃ inner, member = .container inner) ∨ member ∈ members := by
  induction within generalizing container with
  | @own outer span kind name exported params others id =>
    have same := reorders.matches
    cases reorders with
    | @mk members _ _ _ _ _ _ _ inner order =>
      have frame : containerFrame id others = containerFrame id members :=
        congrArg (importFrame (some id)) same.imports
      refine ⟨members, frame ▸ .own, same.imports, fun member listed => ?_⟩
      rcases same.mem member listed with there | ⟨_, inner, rfl, -⟩
      · exact .inr there
      · exact .inl ⟨inner, rfl⟩
  | @nested others outer place further span kind name exported params id n inner listed _ ih =>
    have same := reorders.matches
    cases reorders with
    | @mk members _ _ _ _ _ _ _ between order =>
      have frame : containerFrame id others = containerFrame id members :=
        congrArg (importFrame (some id)) same.imports
      have source : ∃ own, .container own ∈ members ∧ own.Reorders inner := by
        rcases same.mem _ listed with there | ⟨own, twin, equal, there, related⟩
        · exact ⟨inner, there, .refl inner⟩
        · cases equal
          exact ⟨own, there, related⟩
      obtain ⟨own, there, related⟩ := source
      obtain ⟨deeper, within, kept⟩ := ih related
      rw [related.matches.name, frame] at within
      exact ⟨deeper, .nested there within, kept⟩

theorem Covers.reorders {outer : Scope} {id : ContainerId} {container other : Container}
    (covers : w.Covers outer id container) (reorders : container.Reorders other) : w.Covers outer id other := by
  intro place n others within
  obtain ⟨members, own, imports, kept⟩ := within_of_reorders within reorders
  obtain ⟨laid, settles⟩ := covers place n members own
  refine ⟨laid, ⟨fun i lower upper => settles.imports i lower (imports ▸ upper), ?_, ?_⟩⟩
  · intro span value listed
    rcases kept _ listed with ⟨_, equal⟩ | there
    · cases equal
    · exact settles.values span value there
  · intro member listed name named
    rcases kept member listed with ⟨_, rfl⟩ | there
    · cases named
    · exact settles.bodies member there name named

/-- The leading check comes to all members of its items. -/
theorem checkItems_settles (twins : w.Twins) {items : List (Container × ContainerId)} {typed : List TypedContainer}
    (ready : s.Consistent w.env w.room) (idle : s.Idle) (shape : s.symbols.shape = w.last.symbols.shape)
    (laid : ∀ item ∈ items, ∀ place n members,
      Within w.last.symbols.child unit item.2 item.1 place n members → place.Laid w.home)
    (run : (items.mapM fun item => checkContainer w.env unit item.2 item.1) s = .ok typed s') :
    w.Moves w.room s s' ∧ (w.first.Still s → s'.Leads w.last → ∀ item ∈ items, w.Covers unit item.2 item.1) := by
  induction items generalizing s typed with
  | nil =>
    rw [List.mapM_nil] at run
    obtain ⟨-, rfl⟩ := Check.pure_ok.mp run
    exact ⟨.refl ready, fun _ _ _ none => by cases none⟩
  | cons item rest ih =>
    simp only [List.mapM_cons, Check.bind_ok, Check.pure_ok] at run
    obtain ⟨first, t, one, others, _, more, -, rfl⟩ := run
    obtain ⟨moves, covers⟩ := (checkContainer_settles twins).1 unit item.2 item.1 s t first ready idle shape
      (laid item List.mem_cons_self) one
    obtain ⟨further, cover⟩ := ih moves.consistent (moves.idle idle) (moves.leads.shape.trans shape)
      (fun item listed => laid item (List.mem_cons_of_mem _ listed)) more
    refine ⟨moves.trans further, fun still leads => ?_⟩
    exact List.forall_mem_cons.mpr ⟨covers still (further.leads.trans leads),
      cover (still.trans moves.leads.still) leads⟩

theorem Lined.reorders {items others : List (Container × ContainerId)} {other : Container × ContainerId}
    (lined : Lined items others) (listed : other ∈ others) :
    ∃ item ∈ items, item.1.Reorders other.1 ∧ other.2 = item.2 := by
  induction lined with
  | nil => cases listed
  | cons own _ ih =>
    rcases List.mem_cons.mp listed with rfl | later
    · exact ⟨_, List.mem_cons_self, own⟩
    · obtain ⟨item, there, related⟩ := ih later
      exact ⟨item, List.mem_cons_of_mem _ there, related⟩

theorem child_of_shape {S T : Symbols} (same : T.shape = S.shape) : T.child = S.child := by
  funext id name
  exact Symbols.child_congr (Symbols.member?_eq_of_shape same _)

end Window

theorem Container.Reorders.lined {items others : List Container}
    (reorders : List.Forall₂ Container.Reorders items others) (ids : List ContainerId) :
    Window.Lined (items.zip ids) (others.zip ids) := by
  induction reorders generalizing ids with
  | nil => exact .nil
  | cons own _ ih =>
    cases ids with
    | nil => exact .nil
    | cons id ids => exact .cons ⟨own, rfl⟩ (ih ids)

namespace Program

/-- The scope of the containers of a unit. -/
def scope (program : Program) : Scope := [importFrame none program.imports]

/-- The items of a unit with their numbers, the first of which is `base`. -/
def numbered (program : Program) (base : Nat) : List (Container × ContainerId) :=
  program.items.zip (Container.numbers base program.items)

/-- The members with bodies of a unit. -/
def decls (program : Program) (base : Nat) : Declared := Container.declsAll program.scope base program.items

/-- The symbols that the declarations of a unit leave. -/
def declared (program : Program) (table : SymbolTable) : Symbols :=
  table.symbols.extend (Container.tables table.symbols.containers.size program.items)

/-- No name of a unit is given twice. -/
structure Distinct (program : Program) : Prop where
  names : (program.items.map (·.name)).Nodup
  items : ∀ item ∈ program.items, item.Distinct

theorem Reorders.distinct {program other : Program} (reorders : program.Reorders other)
    (distinct : program.Distinct) : other.Distinct where
  names := by
    rw [Container.Reorders.names reorders.items]
    exact distinct.names
  items := Container.Reorders.distincts reorders.items distinct.items

theorem Reorders.scope {program other : Program} (reorders : program.Reorders other) :
    other.scope = program.scope :=
  congrArg (fun imports => [importFrame none imports]) reorders.imports

end Program

namespace Typing

variable {σ : Type} {services : Services σ} {table : SymbolTable} {program : Program} {host : σ}
  {s' : Checking σ}

/-- What is known of a unit behind its declarations. -/
structure Opened (base : Nat) (program : Program) (T : Symbols) : Prop where
  fits : ∀ entry ∈ program.decls base, entry.2.Fits T entry.1 ∧ base ≤ entry.1.owner
  bare : ∀ id, base ≤ id → Bare T id
  holds : ∀ item ∈ program.numbered base, T.Holds base item.2 item.1
  numbers : ∀ item ∈ program.numbered base, T.Numbers item.2 item.1 ∧
    item.1.scopes program.scope item.2 ⊆ unitScopes base program.imports program.items

/-- The environment of the phases behind the declarations. -/
def openEnv (services : Services σ) (table : SymbolTable) (program : Program) : CheckEnv σ :=
  { services, globals := table.globals,
    items := (program.items.map (·.name)).zip (Container.numbers table.symbols.containers.size program.items),
    decls := program.decls table.symbols.containers.size,
    exportedClass := exportedClass? (program.numbered table.symbols.containers.size) }

theorem declareItems_eq (services : Services σ) (table : SymbolTable) (distinct : program.Distinct) (host : σ) :
    declareItems program.scope [] program.items { symbols := table.symbols, host } =
      .ok ((openEnv services table program).items, program.decls table.symbols.containers.size)
        { symbols := program.declared table, host } :=
  (declareItems_iff program.scope [] program.items _ _ _ _ List.nodup_nil).mpr
    ⟨distinct.names, distinct.items, rfl, rfl, rfl⟩

theorem opened (table : SymbolTable) (distinct : program.Distinct) :
    Opened table.symbols.containers.size program (program.declared table) := by
  have run : declareItems program.scope [] program.items { symbols := table.symbols, host := () } = _ :=
    declareItems_eq {} table distinct ()
  have plain : Scope.ids program.scope = [] := by simp [Program.scope, Scope.ids, importFrame]
  obtain ⟨T, same, declares⟩ := declareItems_ok plain (Nat.le_refl _) run
  obtain rfl : program.declared table = T := congrArg Checking.symbols same
  obtain ⟨ids, named, count, numbers⟩ := declareItems_numbers plain run
  obtain ⟨again, namedToo, countToo, holds⟩ := declares.named
  have unzip : ∀ {ids : List ContainerId}, (openEnv ({} : Services Unit) table program).items =
      [] ++ (program.items.map (·.name)).zip ids → ids.length = program.items.length →
        program.items.zip ids = program.numbered table.symbols.containers.size := by
    intro ids same count
    have second := congrArg (List.map Prod.snd) same
    rw [List.nil_append, openEnv, List.map_snd_zip, List.map_snd_zip] at second
    · rw [Program.numbered, second]
    · simp [count]
    · simp [Container.length_numbers]
  exact ⟨declares.fits, declares.new, fun item listed => holds item (unzip namedToo countToo ▸ listed),
    fun item listed => numbers item (unzip named count ▸ listed)⟩

/-- Behind its declarations, the check of a unit goes through its phases. -/
theorem checkProgram_eq (distinct : program.Distinct) (host : σ) :
    checkProgram services table program { symbols := table.symbols, host } = (do
      forIn (program.numbered table.symbols.containers.size) PUnit.unit
        fun (item : Container × ContainerId) (_ : PUnit) => (do
          resolveContainer (openEnv services table program) program.scope item.2 item.1
          return .yield PUnit.unit : Check σ (ForInStep PUnit))
      let imports ← checkImports (openEnv services table program) program.scope 0 program.imports
      let typed ← (program.numbered table.symbols.containers.size).mapM fun item =>
        checkContainer (openEnv services table program) program.scope item.2 item.1
      return ⟨⟨program.span, imports, typed⟩, ← Check.symbols,
        Container.numbers table.symbols.containers.size program.items⟩ : Check σ CheckedUnit)
        (Checking.begun (program.declared table) (program.decls table.symbols.containers.size) host) := by
  have numbers : (openEnv services table program).items.map (·.2) =
      Container.numbers table.symbols.containers.size program.items := by
    rw [openEnv, List.map_snd_zip]
    simp [Container.length_numbers]
  have run := declareItems_eq services table distinct host
  unfold checkProgram
  refine (Check.bind_of_ok run).trans ?_
  dsimp only
  rw [numbers]
  rfl

theorem distinct_of_ok (run : checkProgram services table program { symbols := table.symbols, host } =
    .ok unit s') : program.Distinct := by
  unfold checkProgram at run
  rw [Check.bind_ok] at run
  obtain ⟨⟨named, decls⟩, t, declared, -⟩ := run
  obtain ⟨names, items, -⟩ := (declareItems_iff _ [] _ _ _ _ _ List.nodup_nil).mp declared
  exact ⟨names, items⟩

/-- The check of a unit, and that of the unit with its functions in another order. -/
def reorderWindow (services : Services σ) (table : SymbolTable) (program other : Program) (host : σ) : Window σ where
  env := openEnv services table program
  other := openEnv services table other
  base := table.symbols.containers.size
  room := (program.decls table.symbols.containers.size).length + 1
  home := unitHome table.symbols.containers.size program.imports program.items
  first := .begun (program.declared table) (program.decls table.symbols.containers.size) host
  last := .begun (program.declared table) (program.decls table.symbols.containers.size) host

/-- A place of an item is laid out. -/
theorem Opened.laid {T : Symbols} {base : Nat} (opened : Opened base program T) (listed : item ∈ program.numbered base)
    (within : Within T.child program.scope item.2 item.1 place n members) :
    place.Laid (unitHome base program.imports program.items) :=
  within.laid (opened.numbers item listed).1 (opened.numbers item listed).2 (laid_unit _ _ _)

/-- A member with a body stands in a place of an item. -/
theorem Opened.within {T : Symbols} {base : Nat} (opened : Opened base program T)
    (listed : entry ∈ program.decls base) : ∃ item ∈ program.numbered base, ∃ members,
      Within T.child program.scope item.2 item.1 entry.2.scope entry.1.owner members ∧
        entry.2.member ∈ members ∧ entry.2.member.bodyName? = some entry.1.name := by
  obtain ⟨item, there, own⟩ := Container.item_of_declsAll listed
  exact ⟨item, there, item.1.within_decls _ _ (opened.numbers item there).1 entry own⟩

theorem twins_reorders {program other : Program} (reorders : program.Reorders other)
    (distinct : program.Distinct) (host : σ) : (reorderWindow services table program other host).Twins where
  owned key decl listed := ((opened table distinct).fits _ (mem_of_lookup listed)).2
  decls key := by
    have perm := Container.Reorders.declsAll reorders.items program.scope table.symbols.containers.size
    have nodup := Container.nodup_declsAll program.scope table.symbols.containers.size distinct.items
    show (other.decls _).lookup key = (program.decls _).lookup key
    rw [Program.decls, reorders.scope]
    exact lookup_of_perm perm nodup key
  laid key decl listed := by
    obtain ⟨item, there, members, within, -⟩ := (opened table distinct).within (mem_of_lookup listed)
    exact (opened table distinct).laid there within
  services := rfl
  items := by
    show (other.items.map (·.name)).zip _ = (program.items.map (·.name)).zip _
    rw [Container.Reorders.names reorders.items, Container.Reorders.numbers reorders.items]
  globals := rfl
  room := rfl
  roomToo := by
    have perm := Container.Reorders.declsAll reorders.items program.scope table.symbols.containers.size
    show (other.decls _).length + 1 = (program.decls _).length + 1
    rw [Program.decls, reorders.scope, perm.length_eq]
    rfl

theorem abreast_reorders {program other : Program} (reorders : program.Reorders other)
    (distinct : program.Distinct) (host host' : σ) :
    (reorderWindow services table program other host).Abreast
      (.begun (program.declared table) (program.decls table.symbols.containers.size) host)
      (.begun (other.declared table) (other.decls table.symbols.containers.size) host') where
  shape := rfl
  ready := by
    have fits := (opened table distinct).fits
    exact consistent_start fits (opened table distinct).bare
  readyToo := by
    have twins : (reorderWindow services table program other host).Twins := twins_reorders reorders distinct host
    rw [← twins.roomToo]
    have fits := (opened table (reorders.distinct distinct)).fits
    exact consistent_start fits (opened table (reorders.distinct distinct)).bare
  idle := idle_begun _ _ _
  idleToo := idle_begun _ _ _
  level := by
    have twins : (reorderWindow services table program other host).Twins := twins_reorders reorders distinct host
    exact level_begun (Container.Reorders.tables reorders.items distinct.items _) twins.decls host host'

end Typing

namespace Typing

variable {σ : Type} {services : Services σ} {table : SymbolTable} {program other : Program} {host : σ}
  {unit : CheckedUnit} {s' : Checking σ}

end Typing

namespace Program

/-- A unit of one module. -/
def ofMembers (members : List Member) : Program :=
  ⟨default, [], [.mk default .moduleKind "m" false [] members]⟩

/-- A unit is accepted where nothing else is there. -/
def accepted (program : Program) : Bool := (typecheck ({} : Services Unit) {} () program).1.isOk

end Program

/-- A function from numbers to texts. -/
def Member.conversion (implicit : Bool) (name : String) : Member :=
  .func { span := default, name, params := [⟨"i", ⟨["Int"], default⟩⟩], parens := true,
          result := some ⟨["Str"], default⟩, implicit, body := .str default name }

/-- The order of implicit functions matters where a name that an import binds hides one of them: it is tried
only if it comes first. -/
theorem order_of_conversions : ¬ ∀ members others : List Member, others.Perm members →
    others.filter (!·.isDef) = members.filter (!·.isDef) →
    (Program.ofMembers others).accepted = (Program.ofMembers members).accepted := by
  intro orderless
  let K : Member := .container (.mk default .classKind "K" false [] [.conversion false "d"])
  let M : Member := .container (.mk default .moduleKind "M" false [] [.imports ⟨default, "K", [], [⟨"d", "d"⟩], false⟩,
    .val ⟨default, "s", none, .strict, false, .binary default .concat (.int default 1) (.str default "a")⟩])
  have same := orderless [K, .conversion true "c", .conversion true "d", M]
    [K, .conversion true "d", .conversion true "c", M] (.cons _ (.swap _ _ _)) rfl
  revert same
  decide +kernel

end ScriptShell
