import ScriptShell.Proofs.Exports.Paths
import ScriptShell.Proofs.Order.Units
import ScriptShell.Proofs.Typing.Agreement

/-!
The members of a checked unit. None is lost and none is added: each member of a top-level container comes
out in its typed form, in its place. The path of an import is a text made of words, as every path that a
check has resolved and kept; this is carried from state to state, together with the body of every member
whose check is over.
-/
namespace ScriptShell

open Checking Typing

/-- A member and its typed form. -/
inductive Member.TypedAs : Member → TypedMember → Prop where
  | imports {own : TypedImport} (flags : own.implicits.length = own.decl.selectors.length)
      (path : Dotted own.path) : TypedAs (.imports own.decl) (.imports own)
  | val : TypedAs (.val decl) (.val decl key init)
  | func : TypedAs (.func decl) (.func decl key locals body)
  | foreign : TypedAs (.foreign decl) (.foreign decl key)
  | container {typed : TypedContainer} : TypedAs (.container typed.source) (.container typed)
  | expr : TypedAs (.expr span source) (.expr span value)

theorem isSome_lookup_of_mem [BEq κ] [LawfulBEq κ] {entries : List (κ × α)} {key : κ} {value : α}
    (listed : (key, value) ∈ entries) : (entries.lookup key).isSome = true := by
  rw [← Option.ne_none_iff_isSome]
  intro none
  simpa using List.lookup_eq_none_iff.mp none _ listed

theorem decl_scopedImports {owner : Option ContainerId} {index i : Nat} {imports : List Import}
    {own : ScopedImport} (found : (scopedImports owner index imports)[i]? = some own) :
    imports[i]? = some own.decl := by
  induction imports generalizing index i with
  | nil => cases found
  | cons decl rest ih =>
    cases i with
    | zero => cases found; rfl
    | succ i => exact ih found

/-- The members of a container are among those that wait for their check. -/
theorem mem_declsAll {scope : Scope} {id next : ContainerId} {members : List Member} {member : Member}
    (listed : member ∈ members) {entry : MemberKey × PendingDecl} (own : entry ∈ member.decl? scope id) :
    entry ∈ Member.declsAll scope id next members := by
  induction members generalizing next with
  | nil => cases listed
  | cons head rest ih =>
    rcases List.mem_cons.mp listed with rfl | later
    · cases member with
      | val | func | foreign => cases own; exact List.mem_append_left _ List.mem_cons_self
      | imports | container | expr => cases own
    · cases head <;> exact List.mem_append_right _ (ih later)

theorem Container.decls_subset {unit : Scope} {next : ContainerId} {items : List Container}
    {item : Container × ContainerId} (listed : item ∈ items.zip (Container.numbers next items)) :
    item.1.decls unit item.2 ⊆ Container.declsAll unit next items := by
  induction items generalizing next with
  | nil => cases listed
  | cons first rest ih =>
    rw [Container.numbers, List.zip_cons_cons] at listed
    rw [Container.declsAll]
    rcases List.mem_cons.mp listed with rfl | later
    · exact List.subset_append_left _ _
    · exact List.subset_append_of_subset_right _ (ih later)

section Names

variable {α : Type} {name other : String} {value : α} {entries : List (String × α)}

theorem mem_bindName {entry : String × α} (listed : entry ∈ bindName name value entries) :
    entry = (name, value) ∨ entry ∈ entries := by
  induction entries with
  | nil => simpa [bindName] using listed
  | cons first rest ih =>
    obtain ⟨key, old⟩ := first
    unfold bindName at listed
    split at listed
    next same =>
      rcases List.mem_cons.mp listed with rfl | later
      · exact .inl (by rw [same])
      · exact .inr (List.mem_cons_of_mem _ later)
    next =>
      split at listed
      · exact List.mem_cons.mp listed
      · rcases List.mem_cons.mp listed with rfl | later
        · exact .inr List.mem_cons_self
        · exact (ih later).imp_right (List.mem_cons_of_mem _)

theorem lookup_bindName (differs : other ≠ name) :
    (bindName name value entries).lookup other = entries.lookup other := by
  have apart : (other == name) = false := beq_eq_false_iff_ne.mpr differs
  induction entries with
  | nil => simp [bindName, differs]
  | cons first rest ih =>
    obtain ⟨key, old⟩ := first
    unfold bindName
    split
    next same => rw [← same, List.lookup_cons, List.lookup_cons, apart]
    next =>
      split
      · rw [List.lookup_cons, apart]
      · rw [List.lookup_cons, List.lookup_cons, ih]

end Names

namespace Window

variable {σ : Type} {w : Window σ} {s t s' : Checking σ} {scope : Scope} {id : ContainerId}

/-- The names that the leading check meets are words. -/
structure Worded (w : Window σ) : Prop where
  spelled : w.last.symbols.Spelled
  inside : w.env.Inside w.last.symbols
  home : ∀ key own place, w.home key = some (own, place) → own.decl.Words ∧ place.Words

/-- Between two members of the leading check: the paths that were kept are made of words, and the members
that are done have their bodies. -/
structure Steady (w : Window σ) (s : Checking σ) : Prop where
  ready : s.Consistent w.env w.room
  idle : s.Idle
  shape : s.symbols.shape = w.last.symbols.shape
  paths : ∀ entry ∈ s.paths, w.last.symbols.Spells entry.2
  bodies : ∀ key, s.progress.lookup key = some ⟨.done, true⟩ → (s.bodies.lookup key).isSome = true

theorem PathRun.spells (twins : w.Twins) (worded : w.Worded) {key : ImportKey} {path : TypedExpr}
    (shape : t.symbols.shape = w.last.symbols.shape) (run : w.PathRun key path s t) :
    w.last.symbols.Spells path := by
  obtain ⟨own, place, n, u, v, stands, -, ready, -, resolved, -, leads⟩ := run
  obtain ⟨decl, front⟩ := worded.home key own place stands
  have visits := (moving twins.owned twins.laid n).keeps
  have steps := ((resolve_fits visits).2.2.1 _ _ _ _ _ ready resolved).1
  have before : u.symbols.shape = w.last.symbols.shape :=
    (steps.shape.symm.trans leads.shape.symm).trans shape
  exact (resolve_spelled visits worded.spelled worded.inside).2.2.1 _ _ _ _ _ decl.path front ready before
    resolved

theorem MemberRun.body (twins : w.Twins) {key : MemberKey} (run : w.MemberRun key s t) :
    (t.bodies.lookup key).isSome = true := by
  obtain ⟨decl, n, u, v, listed, ready, begun, -, fresh, ran, leads⟩ := run
  have finished := (checkPending_follows (moving twins.owned twins.laid n) (twins.laid key decl listed) ready
    (twins.owned key decl listed) listed begun (ready.decls key decl listed) fresh ran).1
  obtain ⟨_, body, _, -, -, rfl⟩ := finished
  exact isSome_lookup_of_mem (leads.bodies List.mem_cons_self)

theorem Steady.moves (twins : w.Twins) (worded : w.Worded) (steady : w.Steady s)
    (moves : w.Moves w.room s t) : w.Steady t where
  ready := moves.consistent
  idle := moves.idle steady.idle
  shape := moves.leads.shape.trans steady.shape
  paths := by
    rintro ⟨key, path⟩ listed
    rcases moves.records.paths key path listed with known | ⟨-, run⟩
    · exact steady.paths _ known
    · exact run.spells twins worded (moves.leads.shape.trans steady.shape)
  bodies := by
    intro key done
    have listed : s.progress.lookup key ≠ none := by
      intro absent
      rw [(listed_iff moves.leads.still.keys key).mpr absent] at done
      cases done
    rcases idle_cases steady.idle listed with ⟨waiting, -⟩ | ⟨finished, -⟩
    · rcases moves.records.members key waiting with still | ⟨-, run⟩
      · rw [done] at still
        cases still
      · exact run.body twins
    · obtain ⟨body, kept⟩ := Option.isSome_iff_exists.mp (steady.bodies key finished)
      exact isSome_lookup_of_mem (moves.leads.bodies (mem_of_lookup kept))

/-- A constructor parameter gets its type. -/
theorem Steady.setParam (steady : w.Steady s) (new : w.base ≤ id)
    (found : w.last.symbols.member? ⟨id, name⟩ = some member) (stored : member.isParam = true)
    (isVal : member.kind = .val) {type : Ty} (valued : type.OfMember) : w.Steady (s.setParam id name type) := by
  obtain ⟨own, here, shaped⟩ := Symbols.member?_of_shape steady.shape found
  have step : Checking.Advances w.env w.base _ s _ := setParam_advances steady.ready new here
    ((MemberSymbol.isParam_eq_of_shape shaped).trans stored)
    ((MemberSymbol.kind_eq_of_shape shaped).trans isVal) valued
  exact ⟨step.consistent, steady.idle, (shape_setParam id name type s).trans steady.shape, steady.paths,
    steady.bodies⟩

theorem resolveParams_steady (twins : w.Twins) (worded : w.Worded) (laid : scope.Laid w.home)
    (new : w.base ≤ id) (steady : w.Steady s)
    (params : ∀ param ∈ decls, ∃ member, w.last.symbols.member? ⟨id, param.name⟩ = some member ∧
      member.isParam = true ∧ member.kind = .val)
    (run : resolveParams w.env scope id decls s = .ok u s') : w.Steady s' := by
  induction decls generalizing s with
  | nil =>
    rw [resolveParams] at run
    obtain ⟨-, rfl⟩ := Check.pure_ok.mp run
    exact steady
  | cons param rest ih =>
    rw [List.forall_mem_cons] at params
    obtain ⟨⟨member, found, stored, isVal⟩, others⟩ := params
    simp only [resolveParams, Check.bind_ok, Check.modifyMember_ok, Check.modify_ok] at run
    obtain ⟨type, t, resolved, _, _, rfl, _, _, rfl, run⟩ := run
    rw [twins.visits] at resolved
    have moving := moving twins.owned twins.laid w.room
    have moves := (resolveType_follows moving laid steady.ready resolved).1
    have valued := resolveType_ofMember moving.keeps steady.ready resolved
    exact ih ((steady.moves twins worded moves).setParam new found stored isVal valued) others run

theorem resolveContainer_steady (twins : w.Twins) (worded : w.Worded) :
    (∀ outer id container (s s' : Checking σ), w.Steady s → outer.Laid w.home →
      w.last.symbols.Holds w.base id container →
      (∀ place n members, Within w.last.symbols.child outer id container place n members →
        place.Laid w.home) →
      resolveContainer w.env outer id container s = .ok () s' → w.Steady s') ∧
    ∀ scope id members (s s' : Checking σ), w.Steady s → scope.Laid w.home →
      w.last.symbols.HoldsAll w.base id members →
      (∀ inner, .container inner ∈ members → ∀ place n own,
        Within w.last.symbols.child scope (w.last.symbols.child id inner.name) inner place n own →
          place.Laid w.home) →
      resolveNested w.env scope id members s = .ok () s' → w.Steady s' := by
  apply resolveContainer.mutual_induct
  case case1 =>
    intro outer id span kind name exported params members nested s s' steady laid holds places run
    simp only [Symbols.Holds] at holds
    obtain ⟨new, -, -, found, inner⟩ := holds
    simp only [resolveContainer, Check.bind_ok] at run
    obtain ⟨_, t, first, second⟩ := run
    exact nested t s' (resolveParams_steady twins worded laid new steady found first) (places _ _ _ .own) inner
      (fun own listed place n held within => places place n held (.nested listed within)) second
  case case2 =>
    intro scope id s s' steady _ _ _ run
    rw [resolveNested] at run
    obtain ⟨-, rfl⟩ := Check.pure_ok.mp run
    exact steady
  case case3 =>
    intro scope id decl rest container others s s' steady laid holds places run
    simp only [Symbols.HoldsAll] at holds
    obtain ⟨⟨member, nested, found, inner, held⟩, remaining⟩ := holds
    have child : w.last.symbols.child id decl.name = nested := by simp [Symbols.child, found, inner]
    simp only [resolveNested, Check.bind_ok] at run
    obtain ⟨_, _, number, _, t, first, second⟩ := run
    obtain ⟨rfl, rfl⟩ := nestedId_child steady.shape number
    have own := container _ _ t steady laid (child ▸ held) (places decl List.mem_cons_self) first
    exact others t s' own laid remaining (fun inner listed => places inner (List.mem_cons_of_mem _ listed)) second
  case case4 =>
    intro scope id head rest noContainer further s s' steady laid holds places run
    have remaining : w.last.symbols.HoldsAll w.base id rest := by
      cases head with
      | container decl => exact absurd rfl (noContainer decl)
      | imports | expr => simpa only [Symbols.HoldsAll] using holds
      | val | func | foreign =>
        simp only [Symbols.HoldsAll] at holds
        exact holds.2
    rw [resolveNested] at run
    · exact further s s' steady laid remaining (fun inner listed =>
        places inner (List.mem_cons_of_mem _ listed)) run
    · exact noContainer

theorem resolveItems_steady (twins : w.Twins) (worded : w.Worded) (laid : scope.Laid w.home)
    {items : List (Container × ContainerId)} (steady : w.Steady s)
    (holds : ∀ item ∈ items, w.last.symbols.Holds w.base item.2 item.1)
    (places : ∀ item ∈ items, ∀ place n members,
      Within w.last.symbols.child scope item.2 item.1 place n members → place.Laid w.home)
    (run : (forIn items PUnit.unit fun (item : Container × ContainerId) (_ : PUnit) => (do
      resolveContainer w.env scope item.2 item.1
      return .yield PUnit.unit : Check σ (ForInStep PUnit))) s = .ok u s') : w.Steady s' := by
  induction items generalizing s with
  | nil =>
    rw [List.forIn_nil] at run
    obtain ⟨-, rfl⟩ := Check.pure_ok.mp run
    exact steady
  | cons item rest ih =>
    rw [List.forall_mem_cons] at holds places
    simp only [List.forIn_cons, Check.bind_ok, Check.pure_ok] at run
    obtain ⟨_, _, ⟨_, t, resolved, rfl, rfl⟩, run⟩ := run
    exact ih ((resolveContainer_steady twins worded).1 _ _ _ s t steady laid holds.1 places.1 resolved) holds.2
      places.2 run

theorem pickMembers_length {target : ContainerSymbol}
    (run : (pickMembers own target selectors : Check σ _) s = .ok implicits s') :
    implicits.length = selectors.length := by
  unfold pickMembers at run
  induction selectors generalizing s implicits with
  | nil =>
    rw [List.mapM_nil] at run
    rw [← (Check.pure_ok.mp run).1]
    rfl
  | cons selector rest ih =>
    simp only [List.mapM_cons, Check.bind_ok, Check.pure_ok] at run
    obtain ⟨_, _, -, _, _, others, rfl, rfl⟩ := run
    rw [List.length_cons, List.length_cons, ih others]

/-- A checked import is the one that was written, with a flag for each selector and a path made of words. -/
theorem checkImport_typed (twins : w.Twins) (worded : w.Worded) (steady : w.Steady s)
    (stands : w.home own.key = some (own, scope)) (laid : scope.Laid w.home)
    (run : checkImport w.env own scope s = .ok typed s') :
    w.Steady s' ∧ typed.decl = own.decl ∧ typed.implicits.length = own.decl.selectors.length ∧
      Dotted typed.path := by
  have moves := (checkImport_follows twins (moving twins.owned twins.laid _) stands laid steady.ready run).1
  have later := steady.moves twins worded moves
  rw [checkImport_eq] at run
  simp only [Check.bind_ok, Check.symbols_ok, Check.pure_ok] at run
  obtain ⟨path, after, resolved, _, _, ⟨rfl, rfl⟩, implicits, last, picked, rfl, rfl⟩ := run
  obtain ⟨rfl, -⟩ := pickMembers_ok picked
  have kept := later.paths _ (mem_of_lookup (importPath_noted resolved))
  refine ⟨later, rfl, pickMembers_length picked, ?_⟩
  have text := exportPath_dotted worded.spelled w.env.exportedClass kept
  rw [← exportPath_of_shape later.shape] at text
  exact text

theorem checkContainer_source {env : CheckEnv σ} {container : Container} {typed : TypedContainer}
    (run : checkContainer env scope id container s = .ok typed s') : typed.source = container := by
  cases container with
  | mk =>
    simp only [checkContainer, Check.bind_ok, Check.pure_ok] at run
    obtain ⟨_, _, -, rfl, -⟩ := run
    rfl

/-- A member with a body comes out as one typed member. -/
theorem checkOwn_typed (twins : w.Twins) (worded : w.Worded) (steady : w.Steady s) {member : Member}
    (listed : w.env.decls.lookup ⟨id, name⟩ = some ⟨member, scope⟩)
    (run : checkOwn w.env ⟨id, name⟩ member s = .ok typed s') :
    w.Steady s' ∧ ∃ own, typed = [own] ∧ member.TypedAs own := by
  obtain ⟨moves, known⟩ := checkOwn_moves twins steady.ready steady.idle run
  have later := steady.moves twins worded moves
  refine ⟨later, ?_⟩
  simp only [checkOwn, Check.bind_ok, Check.pure_ok] at run
  obtain ⟨_, t, -, found, u, taken, rfl, rfl⟩ := run
  obtain rfl := typedMember_ok taken
  have waiting : u.progress.lookup ⟨id, name⟩ ≠ none := by
    have same := lookup_isSome_iff_of_keys later.ready.keys (⟨id, name⟩ : MemberKey)
    rw [listed] at same
    exact Option.ne_none_iff_isSome.mpr same
  obtain ⟨body, kept⟩ : ∃ body, u.bodies.lookup ⟨id, name⟩ = some body := by
    rcases idle_cases later.idle waiting with ⟨-, unknown⟩ | ⟨finished, -⟩
    · exact absurd known unknown
    · exact Option.isSome_iff_exists.mp (later.bodies _ finished)
  obtain ⟨decl, again, fits⟩ := later.ready.bodies _ (.refl u) _ (mem_of_lookup kept)
  obtain rfl : ⟨member, scope⟩ = decl := Option.some.inj (listed.symm.trans again)
  simp only [typedMember?, Check.bind_ok, Check.get_ok] at taken
  obtain ⟨_, _, ⟨rfl, rfl⟩, taken⟩ := taken
  cases body with
  | val init =>
    obtain ⟨own, rfl, -⟩ := fits
    simp only [kept, Check.pure_ok] at taken
    exact ⟨_, by rw [← taken.1]; rfl, .val⟩
  | func locals body =>
    obtain ⟨own, _, rfl, -⟩ := fits
    simp only [kept, Check.pure_ok] at taken
    exact ⟨_, by rw [← taken.1]; rfl, .func⟩
  | foreign =>
    obtain ⟨own, rfl⟩ := fits
    simp only [kept, Check.pure_ok] at taken
    exact ⟨_, by rw [← taken.1]; rfl, .foreign⟩

/-- The imports among members stand in a frame from a number on. -/
def Lists (scope : Scope) (index : Nat) (members : List Member) : Prop :=
  ∀ i own place, importAt? scope (index + i) = some (own, place) → ∀ decl ∈ (memberImports members)[i]?,
    own.decl = decl

theorem Lists.restImport (lists : Lists scope index (.imports decl :: members)) :
    Lists scope (index + 1) members := by
  intro i own place found other listed
  rw [Nat.add_assoc, Nat.add_comm 1] at found
  exact lists (i + 1) own place found other listed

/-- The typed forms of members, from an import on. -/
theorem checkMembers_typed (twins : w.Twins) (worded : w.Worded) {index : Nat} {members : List Member}
    (steady : w.Steady s) (laid : scope.Laid w.home) (fits : Fits scope index members)
    (lists : Lists scope index members)
    (inner : ∀ inner, .container inner ∈ members → ∀ place n own,
      Within w.last.symbols.child scope (w.last.symbols.child id inner.name) inner place n own →
        place.Laid w.home)
    (decls : ∀ member ∈ members, ∀ entry ∈ member.decl? scope id,
      w.env.decls.lookup entry.1 = some entry.2)
    (run : checkMembers w.env scope id index members s = .ok typed s') :
    w.Steady s' ∧ List.Forall₂ Member.TypedAs members typed := by
  induction members generalizing s index typed with
  | nil =>
    rw [checkMembers] at run
    obtain ⟨rfl, rfl⟩ := Check.pure_ok.mp run
    exact ⟨steady, .nil⟩
  | cons member rest ih =>
    rw [List.forall_mem_cons] at decls
    have others : ∀ own, .container own ∈ rest → _ := fun own listed => inner own (List.mem_cons_of_mem _ listed)
    cases member with
    | imports decl =>
      obtain ⟨frame, outer, rfl, room⟩ := fits
      obtain ⟨own, place, sought⟩ := importAt?_some outer
        (show index < frame.imports.length by
          simp only [memberImports, List.filterMap_cons, List.length_cons] at room
          omega)
      rw [checkMembers] at run
      simp only [sought, Check.bind_ok, Check.pure_ok] at run
      obtain ⟨first, t, one, _, _, more, rfl, rfl⟩ := run
      obtain ⟨stands, front⟩ := importAt?_stands laid sought
      obtain ⟨later, source, flags, path⟩ := checkImport_typed twins worded steady stands front one
      obtain rfl : own.decl = decl := lists 0 own place sought decl rfl
      have fits : Fits (frame :: outer) index (.imports own.decl :: rest) := ⟨frame, outer, rfl, room⟩
      obtain ⟨last, all⟩ := ih later fits.restImport lists.restImport others decls.2 more
      exact ⟨last, .cons (source ▸ .imports (source ▸ flags) path) all⟩
    | val decl | func decl | foreign decl =>
      rw [checkMembers] at run
      simp only [Check.bind_ok, Check.pure_ok] at run
      obtain ⟨first, t, one, _, _, more, rfl, rfl⟩ := run
      obtain ⟨later, own, rfl, same⟩ := checkOwn_typed twins worded steady (decls.1 _ rfl) one
      obtain ⟨last, all⟩ := ih later (fits.rest rfl) lists others decls.2 more
      exact ⟨last, .cons same all⟩
    | container decl =>
      rw [checkMembers] at run
      simp only [Check.bind_ok, Check.pure_ok] at run
      obtain ⟨_, _, number, first, t, one, _, _, more, rfl, rfl⟩ := run
      obtain ⟨rfl, rfl⟩ := nestedId_child steady.shape number
      have moves := ((checkContainer_settles twins).1 _ _ _ _ _ _ steady.ready steady.idle steady.shape
        (inner decl List.mem_cons_self) one).1
      obtain ⟨last, all⟩ := ih (steady.moves twins worded moves) (fits.rest rfl) lists others decls.2 more
      exact ⟨last, .cons (checkContainer_source one ▸ .container) all⟩
    | expr span value =>
      rw [checkMembers] at run
      simp only [Check.bind_ok, Check.pure_ok] at run
      obtain ⟨first, t, one, _, _, more, rfl, rfl⟩ := run
      rw [twins.visits] at one
      have moves := (checkValue_follows (moving twins.owned twins.laid _) laid steady.ready one).1
      obtain ⟨last, all⟩ := ih (steady.moves twins worded moves) (fits.rest rfl) lists others decls.2 more
      exact ⟨last, .cons .expr all⟩

theorem checkImports_steady (twins : w.Twins) (worded : w.Worded) (laid : scope.Laid w.home)
    {index : Nat} {imports : List Import} (steady : w.Steady s)
    (run : checkImports w.env scope index imports s = .ok typed s') : w.Steady s' := by
  induction imports generalizing s index typed with
  | nil =>
    rw [checkImports] at run
    exact (Check.pure_ok.mp run).2 ▸ steady
  | cons first rest ih =>
    unfold checkImports at run
    cases sought : importAt? scope index with
    | none =>
      simp only [sought, Check.pure_ok] at run
      exact run.2 ▸ steady
    | some place =>
      simp only [sought, Check.bind_ok, Check.pure_ok] at run
      obtain ⟨_, t, one, _, _, more, -, rfl⟩ := run
      obtain ⟨stands, front⟩ := importAt?_stands laid sought
      exact ih (checkImport_typed twins worded steady stands front one).1 more

/-- The imports of a container stand in its frame. -/
theorem lists_containerFrame (id : ContainerId) (members : List Member) (outer : Scope) :
    Lists (containerFrame id members :: outer) 0 members := by
  intro i own place found decl listed
  have inside := (List.getElem?_eq_some_iff.mp listed).1
  unfold importAt? at found
  simp only [containerFrame, importFrame, List.length_reverse, length_scopedImports, Nat.zero_add] at found
  split at found
  next mine earlier dropped =>
    simp only [Option.some.injEq, Prod.mk.injEq] at found
    obtain ⟨rfl, -⟩ := found
    have first := congrArg (·[0]?) dropped
    simp only [List.getElem?_cons_zero, List.getElem?_drop, Nat.add_zero] at first
    rw [List.getElem?_reverse (by rw [length_scopedImports]; omega), length_scopedImports] at first
    have place : (memberImports members).length - 1 - ((memberImports members).length - (i + 1)) = i := by omega
    rw [place] at first
    have same := decl_scopedImports first
    rw [listed] at same
    exact (Option.some.inj same).symm
  next => cases found

theorem checkItems_typed (twins : w.Twins) (worded : w.Worded)
    {items : List (Container × ContainerId)} {typed : List TypedContainer} (steady : w.Steady s)
    (places : ∀ item ∈ items, ∀ place n members,
      Within w.last.symbols.child scope item.2 item.1 place n members → place.Laid w.home)
    (decls : ∀ item ∈ items, ∀ entry ∈ item.1.decls scope item.2, w.env.decls.lookup entry.1 = some entry.2)
    (run : (items.mapM fun item => checkContainer w.env scope item.2 item.1) s = .ok typed s') :
    List.Forall₂ (fun item own => own.source = item.1 ∧
      List.Forall₂ Member.TypedAs item.1.members own.members) items typed := by
  induction items generalizing s typed with
  | nil =>
    rw [List.mapM_nil] at run
    obtain ⟨rfl, -⟩ := Check.pure_ok.mp run
    exact .nil
  | cons item rest ih =>
    rw [List.forall_mem_cons] at places decls
    simp only [List.mapM_cons, Check.bind_ok, Check.pure_ok] at run
    obtain ⟨first, t, one, others, _, more, rfl, rfl⟩ := run
    have moves := ((checkContainer_settles twins).1 _ _ _ _ _ _ steady.ready steady.idle steady.shape places.1
      one).1
    refine .cons ⟨checkContainer_source one, ?_⟩ (ih (steady.moves twins worded moves) places.2 decls.2 more)
    obtain ⟨⟨span, kind, name, exported, params, members⟩, id⟩ := item
    simp only [checkContainer, Check.bind_ok, Check.pure_ok] at one
    obtain ⟨own, _, checked, rfl, rfl⟩ := one
    refine (checkMembers_typed twins worded steady (places.1 _ _ _ .own) ?_ (lists_containerFrame id members _)
      (fun inner listed place n held within => places.1 place n held (.nested listed within)) ?_ checked).2
    · exact ⟨_, _, rfl, by simp [containerFrame, importFrame, length_scopedImports]⟩
    · intro member listed entry own
      exact decls.1 entry (mem_declsAll listed own)

end Window

namespace Typing

variable {σ : Type} {services : Services σ} {table : SymbolTable} {program : Program} {host host' : σ}
  {unit : CheckedUnit} {s' : Checking σ}

theorem reorders_self (program : Program) : program.Reorders program :=
  ⟨rfl, List.forall₂_same.mpr fun item _ => .refl item⟩

/-- Of a unit whose names are words, the check meets words only. -/
theorem worded_unit (words : program.Words) (spelled : table.Spelled) (host : σ) :
    (reorderWindow services table program program host).Worded where
  spelled := spelled.symbols.declared words.items
  inside name id found := by
    show id < (program.declared table).containers.size
    rw [Program.declared, Symbols.size_extend]
    rw [Option.orElse_eq_orElse, Option.orElse_eq_or] at found
    rcases Option.or_eq_some_iff.mp found with own | ⟨-, old⟩
    · exact Container.lt_of_mem_numbers (List.of_mem_zip (mem_of_lookup own)).2
    · exact Nat.lt_of_lt_of_le (spelled.globals _ (mem_of_lookup old)) (Nat.le_add_right _ _)
  home _ _ _ found := unitHome_words words found

theorem steady_begun (distinct : program.Distinct) (host : σ) :
    (reorderWindow services table program program host).Steady
      (.begun (program.declared table) (program.decls table.symbols.containers.size) host) where
  ready := (abreast_reorders (reorders_self program) distinct host host).ready
  idle := idle_begun _ _ _
  shape := rfl
  paths := by simp [begun]
  bodies key done := by
    rw [show (begun _ _ host).progress.lookup key = _ from lookup_begun _ key] at done
    obtain ⟨_, -, other⟩ := Option.map_eq_some_iff.mp done
    cases other

/-- The check of a unit goes on from its declarations. -/
theorem checkProgram_ok (run : checkProgram services table program { symbols := table.symbols, host } =
    .ok unit s') : program.Distinct ∧ unit.symbols.shape = (program.declared table).shape ∧
      unit.containers = Container.numbers table.symbols.containers.size program.items ∧
      (program.Words → table.Spelled → List.Forall₂ (fun item own => own.source = item ∧
        List.Forall₂ Member.TypedAs item.members own.members) program.items unit.program.items) := by
  have distinct := distinct_of_ok run
  have opens : Opened _ program _ := opened table distinct
  have twins : (reorderWindow services table program program host).Twins :=
    twins_reorders (reorders_self program) distinct host
  have start : (reorderWindow services table program program host).Steady _ := steady_begun distinct host
  refine ⟨distinct, ?_⟩
  rw [checkProgram_eq distinct] at run
  simp only [Check.bind_ok, Check.symbols_ok, Check.pure_ok] at run
  obtain ⟨_, s₁, resolved, typedImports, s₂, imported, typed, s₃, checked, _, _, ⟨rfl, rfl⟩, rfl, rfl⟩ := run
  have plain : Scope.ids program.scope = [] := by simp [Program.scope, Scope.ids, importFrame]
  have steps := (phases_spec opens.fits opens.bare plain opens.holds resolved imported checked).1
  refine ⟨steps.shape, rfl, fun words spelled => ?_⟩
  have worded : (reorderWindow services table program program host).Worded := worded_unit words spelled host
  have places : ∀ item ∈ program.numbered table.symbols.containers.size, ∀ place n members,
      Within (program.declared table).child program.scope item.2 item.1 place n members → place.Laid _ :=
    fun item listed place n members within => opens.laid listed within
  have unit : program.scope.Laid _ := laid_unit table.symbols.containers.size program.imports program.items
  have first := Window.resolveItems_steady twins worded unit start opens.holds places resolved
  have second := Window.checkImports_steady twins worded unit first imported
  have decls : ∀ item ∈ program.numbered table.symbols.containers.size, ∀ entry ∈ item.1.decls program.scope item.2,
      (program.decls table.symbols.containers.size).lookup entry.1 = some entry.2 := fun item listed entry own =>
    lookup_of_listed (Container.nodup_declsAll program.scope _ distinct.items)
      (Container.decls_subset listed own)
  have typed := Window.checkItems_typed twins worded second places decls checked
  have items : (program.numbered table.symbols.containers.size).map (·.1) = program.items :=
    List.map_fst_zip (by simp [Container.length_numbers])
  rw [← items]
  exact List.forall₂_map_left_iff.mpr typed

end Typing

section Accepted

variable {σ : Type} {services : Services σ} {table : SymbolTable} {program : Program} {host host' : σ}
  {unit : Typing.CheckedUnit}

theorem checkProgram_of_accepted (accepted : typecheck services table host program = (.ok unit, host')) :
    ∃ s, Typing.checkProgram services table program { symbols := table.symbols, host } = .ok unit s := by
  rw [typecheck_eq] at accepted
  cases ran : (Typing.checkProgram services table program).run { symbols := table.symbols, host } with
  | error error s => simp [ran] at accepted
  | ok checked s =>
    simp only [ran, Prod.mk.injEq, Except.ok.injEq] at accepted
    obtain ⟨rfl, -⟩ := accepted
    exact ⟨s, ran⟩

/-- The members of an accepted unit come out in their typed forms, each in its place. -/
theorem typecheck_members (accepted : typecheck services table host program = (.ok unit, host'))
    (words : program.Words) (spelled : table.Spelled) :
    List.Forall₂ (fun item own => own.source = item ∧ List.Forall₂ Member.TypedAs item.members own.members)
      program.items unit.program.items := by
  obtain ⟨s, ran⟩ := checkProgram_of_accepted accepted
  exact (checkProgram_ok ran).2.2.2 words spelled

/-- What an accepted unit adds to the symbols: its containers, under names that differ. -/
theorem typecheck_declares (accepted : typecheck services table host program = (.ok unit, host')) :
    (program.items.map (·.name)).Nodup ∧ unit.symbols.shape = (program.declared table).shape ∧
      unit.containers = Container.numbers table.symbols.containers.size program.items := by
  obtain ⟨s, ran⟩ := checkProgram_of_accepted accepted
  obtain ⟨distinct, shape, containers, -⟩ := checkProgram_ok ran
  exact ⟨distinct.names, shape, containers⟩

theorem Container.name_table (artifact : String) (outer : Option String) (next : ContainerId)
    (container : Container) : (container.table artifact outer next).head?.map (·.name) = some container.name := by
  cases container
  rw [Container.table]
  rfl

theorem ContainerSymbol.name_eq_of_shape {c d : ContainerSymbol} (same : c.shape = d.shape) : c.name = d.name :=
  (congrArg ContainerSymbol.name same :)

/-- The items of a unit are found under their numbers, each by its name. -/
theorem names_tables (S : Symbols) (items : List Container) :
    (Container.numbers S.containers.size items).map
      (fun id => ((S.extend (Container.tables S.containers.size items)).get id).name) = items.map (·.name) := by
  induction items generalizing S with
  | nil => rfl
  | cons item rest ih =>
    have front : (S.extend (item.table item.name none S.containers.size)).containers.size =
        S.containers.size + item.count := by rw [Symbols.size_extend, item.length_table]
    have others := ih (S.extend (item.table item.name none S.containers.size))
    rw [front, Symbols.extend_extend] at others
    rw [Container.numbers, Container.tables, List.map_cons, List.map_cons, others]
    congr 1
    have own := Symbols.get_extend_new S
      (item.table item.name none S.containers.size ++ Container.tables (S.containers.size + item.count) rest) 0
    rw [Nat.add_zero] at own
    rw [own]
    have named := item.name_table item.name none S.containers.size
    cases table : item.table item.name none S.containers.size with
    | nil => rw [table] at named; cases named
    | cons first more =>
      rw [table] at named
      exact Option.some.inj named

/-- The top-level containers of a unit have the names that were written. -/
theorem typecheck_names (accepted : typecheck services table host program = (.ok unit, host')) :
    unit.containers.map (fun id => (unit.symbols.get id).name) = program.items.map (·.name) := by
  obtain ⟨-, shape, containers⟩ := typecheck_declares accepted
  rw [containers, ← names_tables table.symbols]
  exact List.map_congr_left fun id _ => ContainerSymbol.name_eq_of_shape (Symbols.get_eq_of_shape shape id)

namespace SymbolTable

variable {symbols : Symbols} {ids : List ContainerId} {globals : List (String × ContainerId)}

/-- The top-level containers behind a unit are those before it and its own. -/
theorem mem_commit {entry : String × ContainerId} (listed : entry ∈ (table.commit symbols ids).globals) :
    entry ∈ table.globals ∨ entry.2 ∈ ids ∧ entry.1 = (symbols.get entry.2).name := by
  unfold commit at listed
  dsimp only at listed
  generalize table.globals = globals at listed ⊢
  induction ids generalizing globals with
  | nil => exact .inl listed
  | cons id rest ih =>
    rcases ih _ listed with before | ⟨own, named⟩
    · rcases mem_bindName before with rfl | old
      · exact .inr ⟨List.mem_cons_self, rfl⟩
      · exact .inl old
    · exact .inr ⟨List.mem_cons_of_mem _ own, named⟩

/-- A container stays under its name unless a unit has one of that name. -/
theorem find?_commit {name : String} (fresh : ∀ id ∈ ids, (symbols.get id).name ≠ name) :
    (table.commit symbols ids).find? name = table.find? name := by
  unfold commit find?
  dsimp only
  generalize table.globals = globals
  induction ids generalizing globals with
  | nil => rfl
  | cons id rest ih =>
    rw [List.forall_mem_cons] at fresh
    rw [List.foldl_cons, ih fresh.2, lookup_bindName fresh.1.symm]

end SymbolTable

/-- Symbols are taken over with paths made of words. -/
theorem SymbolTable.Spelled.commit (spelled : table.Spelled) (words : program.Words)
    (accepted : typecheck services table host program = (.ok unit, host')) :
    (table.commit unit.symbols unit.containers).Spelled := by
  obtain ⟨-, shape, containers⟩ := typecheck_declares accepted
  have size : unit.symbols.containers.size = (program.declared table).containers.size :=
    Symbols.size_of_shape shape
  have declared : (program.declared table).Spelled := spelled.symbols.declared words.items
  refine ⟨declared.of_shape shape, fun entry listed => ?_⟩
  show entry.2 < unit.symbols.containers.size
  rw [size, Program.declared, Symbols.size_extend]
  rcases mem_commit listed with old | ⟨own, -⟩
  · exact Nat.lt_of_lt_of_le (spelled.globals entry old) (Nat.le_add_right _ _)
  · rw [containers] at own
    exact Container.lt_of_mem_numbers own

end Accepted

end ScriptShell
