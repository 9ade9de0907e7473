import ScriptShell.Proofs.Order.Places
import ScriptShell.Proofs.Order.Steps

/-! The phases in front of the members: the types of constructor parameters, and the imports of the unit.
Both checks take the same steps here, since neither depends on the order of functions. -/
namespace ScriptShell

open Checking Typing

namespace Checking

variable {σ : Type} {s t : Checking σ} {id : ContainerId}

/-- Writes the type of a constructor parameter. -/
def setParam (id : ContainerId) (name : String) (type : Ty) (s : Checking σ) : Checking σ :=
  { s with symbols := (s.symbols.modifyMember ⟨id, name⟩ ({ · with type })).modify id fun container =>
      { container with params := container.params ++ [⟨name, type⟩] } }

theorem shape_setParam (id : ContainerId) (name : String) (type : Ty) (s : Checking σ) :
    (s.setParam id name type).symbols.shape = s.symbols.shape := by
  unfold setParam
  rw [Symbols.shape_modify, Symbols.shape_modifyMember]
  · exact fun _ => rfl
  · exact fun _ => rfl

theorem member?_setParam (id : ContainerId) (name : String) (type : Ty) (s : Checking σ) (key : MemberKey) :
    (s.setParam id name type).symbols.member? key =
      if ⟨id, name⟩ = key then (s.symbols.member? key).map ({ · with type }) else s.symbols.member? key := by
  have same : (s.setParam id name type).symbols.member? key =
      (s.symbols.modifyMember ⟨id, name⟩ ({ · with type })).member? key := by
    unfold Symbols.member? ContainerSymbol.find? setParam
    rw [Symbols.members_modify]
    exact fun _ => rfl
  rw [same, Symbols.member?_modifyMember]
  exact fun _ => rfl

theorem params_setParam (inside : id < s.symbols.containers.size) (name : String) (type : Ty)
    (other : ContainerId) : ((s.setParam id name type).symbols.get other).params =
      if id = other then (s.symbols.get other).params ++ [⟨name, type⟩] else (s.symbols.get other).params := by
  unfold setParam
  by_cases same : id = other
  · subst same
    rw [if_pos rfl, Symbols.get_modify_self (by simpa [Symbols.modifyMember, Symbols.size_modify] using inside)]
    exact congrArg (· ++ _) (params_modifyMember s.symbols _ _ id)
  · rw [if_neg same, Symbols.get_modify_other same]
    exact params_modifyMember s.symbols _ _ other

/-- Both checks write the same type. -/
theorem Level.setParam (level : Level s t) (found : s.symbols.member? ⟨id, name⟩ = some member) (type : Ty) :
    Level (s.setParam id name type) (t.setParam id name type) where
  alike := level.alike.of_shape (shape_setParam id name type s) (shape_setParam id name type t)
  params other := by
    obtain ⟨twin, present, -⟩ := level.alike.found found
    rw [params_setParam (Symbols.inside_of_member? found), params_setParam (Symbols.inside_of_member? present),
      level.params]
  listed := level.listed
  typed := level.typed
  agree key known own twin found present := by
    rw [member?_setParam] at found present
    split at found
    next same =>
      rw [if_pos same] at present
      obtain ⟨before, earlier, rfl⟩ := Option.map_eq_some_iff.mp found
      obtain ⟨other, earlierToo, rfl⟩ := Option.map_eq_some_iff.mp present
      exact ⟨rfl, (level.agree key known before other earlier earlierToo).2⟩
    next differs =>
      rw [if_neg differs] at present
      exact level.agree key known own twin found present
  cached := level.cached
  paths := level.paths

end Checking

/-! The phases forget no body. -/

namespace Check

variable {σ : Type} (env : CheckEnv σ)

end Check

namespace Window

variable {σ : Type} {w : Window σ} {s t s' : Checking σ} {scope : Scope} {id : ContainerId}

theorem Twins.visits (twins : w.Twins) : visitMember w.env = checkMember w.env w.room := by
  rw [visitMember, twins.room]

theorem Twins.visitsToo (twins : w.Twins) : visitMember w.other = checkMember w.other w.room := by
  rw [visitMember, twins.roomToo]

/-- Items that are the same but for the order of functions, under the same numbers. -/
def Lined (items others : List (Container × ContainerId)) : Prop :=
  List.Forall₂ (fun own other => own.1.Reorders other.1 ∧ other.2 = own.2) items others

end Window

namespace Typing

variable {σ : Type} {w : Window σ} {s s' : Checking σ} {scope : Scope}

/-- The members that the selectors of an import pick, which must be there. -/
def pickMembers (own : Import) (target : ContainerSymbol) (selectors : List Selector) : Check σ (List Bool) :=
  selectors.mapM fun selector =>
    match target.find? selector.name with
    | some member => return member.implicit
    | none => Check.fail own.span (.notMember selector.name own.pathText)

theorem checkImport_eq (env : CheckEnv σ) (own : ScopedImport) (scope : Scope) :
    checkImport env own scope = (do
      let path ← importPath env (visitMember env) own scope
      let symbols ← Check.symbols
      let implicits ← pickMembers own.decl ((path.type.container?.map symbols.get).getD {}) own.decl.selectors
      let (text, relative) := exportPath symbols env.exportedClass path
      return ⟨own.decl, implicits, text, relative⟩) :=
  rfl

theorem pickMembers_ok {target : ContainerSymbol}
    (run : (pickMembers own target selectors : Check σ _) s = .ok implicits s') :
    s' = s ∧ ∀ selector ∈ selectors, (target.find? selector.name).isSome := by
  unfold pickMembers at run
  induction selectors generalizing s implicits with
  | nil =>
    rw [List.mapM_nil] at run
    exact ⟨(Check.pure_ok.mp run).2.symm, by simp⟩
  | cons selector rest ih =>
    simp only [List.mapM_cons, Check.bind_ok, Check.pure_ok] at run
    obtain ⟨_, _, one, _, _, others, -, rfl⟩ := run
    obtain ⟨rfl, there⟩ := ih others
    cases found : target.find? selector.name with
    | some member =>
      simp only [found, Check.pure_ok] at one
      exact ⟨one.2.symm, List.forall_mem_cons.mpr ⟨by rw [found]; rfl, there⟩⟩
    | none => simp [found, Check.fail_ok] at one

theorem pickMembers_all {target : ContainerSymbol}
    (there : ∀ selector ∈ selectors, (target.find? selector.name).isSome) :
    ∃ implicits, (pickMembers own target selectors : Check σ _) = pure implicits := by
  unfold pickMembers
  induction selectors with
  | nil => exact ⟨[], List.mapM_nil⟩
  | cons selector rest ih =>
    obtain ⟨others, same⟩ := ih fun selector listed => there selector (List.mem_cons_of_mem _ listed)
    obtain ⟨member, found⟩ := Option.isSome_iff_exists.mp (there selector List.mem_cons_self)
    refine ⟨member.implicit :: others, ?_⟩
    rw [List.mapM_cons, same, found]
    rfl

/-- An import is followed: its path has the same type, and the members it picks are there. -/
theorem checkImport_follows (twins : w.Twins) (moving : w.Moving w.room)
    (stands : w.home own.key = some (own, scope)) (laid : scope.Laid w.home)
    (ready : s.Consistent w.env w.room) (run : checkImport w.env own scope s = .ok typed s') :
    w.Moves w.room s s' ∧ ∀ t, w.Follows s s' t (checkImport w.other own scope) fun _ _ => True := by
  rw [checkImport_eq, twins.visits] at run
  rw [checkImport_eq, twins.visitsToo]
  simp only [Check.bind_ok, Check.symbols_ok, Check.pure_ok] at run
  obtain ⟨path, after, resolved, _, _, ⟨rfl, rfl⟩, implicits, last, picked, -, rfl⟩ := run
  obtain ⟨rfl, there⟩ := pickMembers_ok picked
  obtain ⟨moves, follows⟩ := importPath_follows moving stands laid ready resolved
  refine ⟨moves, fun t => .bind (follows t) moves.leads (.refl _) ?_⟩
  intro got v _ type
  refine .given fun _ _ leads _ trails => .symbols ?_
  have members : ∀ name, (((got.type.container?.map v.symbols.get).getD {}).find? name).isSome =
      (((path.type.container?.map last.symbols.get).getD {}).find? name).isSome := by
    intro name
    rw [type]
    cases path.type.container? with
    | none => rfl
    | some owner =>
      have same := congrArg Option.isSome ((trails.sees leads).member? ⟨owner, name⟩)
      simp only [Option.isSome_map] at same
      exact same
  have found : ∀ selector ∈ own.decl.selectors,
      (((got.type.container?.map v.symbols.get).getD {}).find? selector.name).isSome := by
    intro selector listed
    rw [members]
    exact there selector listed
  obtain ⟨_, picks⟩ : ∃ implicits, (_ : Check σ _) = pure implicits := pickMembers_all found
  rw [picks]
  exact .pure trivial

/-- An import of a frame stands in its own place. -/
theorem importAt?_stands {home : ImportKey → Option (ScopedImport × Scope)} (laid : scope.Laid home)
    (sought : importAt? scope index = some (own, place)) :
    home own.key = some (own, place) ∧ place.Laid home := by
  unfold importAt? at sought
  split at sought
  · cases sought
  next frame outer =>
    split at sought
    next mine earlier dropped =>
      simp only [Option.some.injEq, Prod.mk.injEq] at sought
      obtain ⟨rfl, rfl⟩ := sought
      have suffix : mine :: earlier <:+ frame.imports := dropped ▸ List.drop_suffix _ _
      exact ⟨laid.1 mine earlier suffix, laid.earlier ((List.suffix_cons mine earlier).trans suffix)⟩
    next => cases sought

end Typing

end ScriptShell
