import Mathlib.Data.List.Forall2
import ScriptShell.Proofs.Order.Traces

/-! Names and paths are followed. Both checks look a name up in the same frames, the same imports and the
same containers; where the type of a member is asked for, the one may have to visit the member and the
other one not, but the type is the same. -/
namespace ScriptShell

/-- Typed expressions that the rest of a check treats alike: locals may have other numbers. -/
structure TypedExpr.Alike (a b : TypedExpr) : Prop where
  span : b.span = a.span
  type : b.type = a.type
  calleeMember? : b.calleeMember? = a.calleeMember?
  shows : (∃ span type name, b = .name span type name .builtinShow) ↔
    ∃ span type name, a = .name span type name .builtinShow

theorem TypedExpr.Alike.refl (a : TypedExpr) : a.Alike a := ⟨rfl, rfl, rfl, Iff.rfl⟩

/-- Locals of the same names and types. -/
def Locals.Alike (first second : List (String × Local)) : Prop :=
  List.Forall₂ (fun a b => b.1 = a.1 ∧ b.2.type = a.2.type) first second

/-- Frames that differ in the numbers of locals. -/
structure Frame.Alike (first second : Frame) : Prop where
  locals : Locals.Alike first.locals second.locals
  container : second.container = first.container
  imports : second.imports = first.imports

/-- Scopes that differ in the numbers of locals. -/
def Scope.Alike (first second : Scope) : Prop := List.Forall₂ Frame.Alike first second

theorem Locals.Alike.refl (locals : List (String × Local)) : Locals.Alike locals locals :=
  List.forall₂_same.mpr fun _ _ => ⟨rfl, rfl⟩

theorem Scope.Alike.refl (scope : Scope) : scope.Alike scope :=
  List.forall₂_same.mpr fun _ _ => ⟨.refl _, rfl, rfl⟩

theorem Scope.Alike.inside {first second : Scope} (alike : first.Alike second)
    {locals others : List (String × Local)} (same : Locals.Alike locals others) :
    Scope.Alike ({ locals } :: first) ({ locals := others } :: second) :=
  .cons ⟨same, rfl, rfl⟩ alike

theorem Locals.Alike.lookup {first second : List (String × Local)} (alike : Locals.Alike first second)
    (name : String) :
    (second.lookup name).map (·.type) = (first.lookup name).map (·.type) := by
  induction alike with
  | nil => rfl
  | @cons a b _ _ head _ ih =>
    obtain ⟨first, own⟩ := a
    obtain ⟨second, twin⟩ := b
    obtain ⟨rfl, type⟩ := head
    by_cases named : name = second
    · subst named
      simpa using type
    · have other : (name == second) = false := by simpa using named
      simpa only [List.lookup_cons, other] using ih

/-- Where no local of the first frame bears a name, none of the other one's does. -/
theorem Scope.Alike.split {frame : Frame} {outer other : Scope} (alike : Scope.Alike (frame :: outer) other)
    (unbound : frame.locals.lookup name = none) :
    ∃ twin rest, other = twin :: rest ∧ frame.Alike twin ∧ outer.Alike rest ∧
      twin.locals.lookup name = none := by
  cases alike with
  | @cons _ twin _ rest head tail =>
    have same := head.locals.lookup name
    rw [unbound, Option.map_none, Option.map_eq_none_iff] at same
    exact ⟨twin, rest, rfl, head, tail, same⟩

theorem Scope.Alike.innermostClass? {first second : Scope} (alike : first.Alike second) {S T : Symbols}
    (same : S.Alike T) : second.innermostClass? T = first.innermostClass? S := by
  induction alike with
  | nil => rfl
  | cons head _ ih => simp only [Scope.innermostClass?, head.container, same.isClass, ih]

namespace Typing

open Checking

variable {σ : Type} {w : Window σ} {n : Nat} {s s' t : Checking σ} {key : MemberKey}

/-- A member that the leading check knows in the end can be visited. -/
theorem visit_follows (known : s'.Typed key)
    (waiting : t.progress.lookup key = some ⟨.pending, false⟩) :
    w.Follows s s' t (w.reply key) fun _ t' => t'.Typed key := by
  intro chased still leads ready trails
  have lands := chased.visits key t ready trails waiting (leads.typed key known)
  cases ran : w.reply key t with
  | ok u t' =>
    rw [ran] at lands
    exact ⟨chased.keeps.advances key t t' ready ran, lands, chased.keeps.typed key t t' ready ran waiting⟩
  | error error t' =>
    rw [ran] at lands
    exact lands

theorem memberType_follows (moving : w.Moving n) (ready : s.Consistent w.env n)
    (found : s.symbols.member? key = some member)
    (run : memberType (checkMember w.env n) key member use s = .ok type s') :
    w.Moves n s s' ∧ s'.Typed key ∧ ∀ t twin, t.symbols.member? key = some twin →
      w.Follows s s' t (memberType w.reply key twin use) fun type' t' => type' = type ∧ t'.Typed key := by
  obtain ⟨-, known, now, present, -, rfl⟩ := memberType_spec moving.keeps ready found run
  have moves : w.Moves n s s' := by
    simp only [memberType, Check.bind_ok, Check.progress?_ok] at run
    obtain ⟨progress, _, ⟨listed, rfl⟩, run⟩ := run
    cases progress with
    | none =>
      obtain ⟨-, rfl⟩ := Check.pure_ok.mp run
      exact .refl ready
    | some own =>
      simp only [Check.guard_ok] at run
      obtain ⟨-, run⟩ := run
      split at run
      · simp only [Check.bind_ok, Check.symbols_ok, Check.pure_ok] at run
        obtain ⟨_, after, visited, _, _, ⟨rfl, rfl⟩, -, rfl⟩ := run
        exact moving.moves key s after ready visited
      · simp only [Check.bind_ok, Check.symbols_ok, Check.pure_ok] at run
        obtain ⟨_, _, ⟨rfl, rfl⟩, -, rfl⟩ := run
        exact .refl ready
  refine ⟨moves, known, ?_⟩
  intro t twin mirrored
  refine .given fun chased still leads readyToo trails => ?_
  -- The type read from a state in which the member is known.
  have reads : ∀ r u : Checking σ, u.Typed key → t.symbols.shape = u.symbols.shape →
      w.Follows r s' u (do return (((← Check.symbols).member? key).map (·.type)).getD .error)
        fun type' t' => type' = now.type ∧ t'.Typed key := by
    intro r u knownToo shape
    refine .given fun _ _ _ _ trails => .symbols (.pure ⟨?_, knownToo⟩)
    obtain ⟨later, listed, -⟩ := Symbols.member?_of_shape shape.symm mirrored
    simp only [listed, Option.map_some, Option.getD_some]
    exact (trails.agrees moves.consistent leads known knownToo present listed).1
  unfold memberType
  refine .progress ?_
  cases listed : t.progress.lookup key with
  | none =>
    have knownToo : t.Typed key := by
      intro own impossible
      rw [listed] at impossible
      cases impossible
    exact .pure ⟨(trails.agrees moves.consistent leads known knownToo present mirrored).1, knownToo⟩
  | some own =>
    obtain ⟨state, typed⟩ := own
    have flags := readyToo.flags _ (mem_of_lookup listed)
    cases typed with
    | true =>
      simp only [Bool.not_true, Bool.false_and, Bool.false_eq_true, if_false]
      have knownToo : t.Typed key := by
        intro own again
        rw [listed, Option.some.injEq] at again
        subst again
        exact ⟨rfl, flags.2 rfl⟩
      exact reads s t knownToo rfl
    | false =>
      cases state with
      | done => exact absurd (flags.1 rfl) (by simp)
      | checking =>
        simp only [Bool.not_false, Bool.true_and, decide_true, if_true]
        exact .refused trivial
      | pending =>
        simp only [Bool.not_false, Bool.true_and, if_true]
        refine .bind (visit_follows known listed) moves.leads (.refl s') ?_
        intro _ v steps knownToo
        exact reads s' v knownToo steps.shape.symm

theorem memberAccess_follows (moving : w.Moving n) (ready : s.Consistent w.env n)
    (found : s.symbols.member? key = some member)
    (run : memberAccess (checkMember w.env n) key member onThis callee span s = .ok (type, ref) s') :
    w.Moves n s s' ∧ s'.Typed key ∧ (∃ ofClass auto, ref = .member key ofClass onThis auto) ∧
      ∀ t twin, t.symbols.member? key = some twin → twin.shape = member.shape →
        w.Follows s s' t (memberAccess w.reply key twin onThis callee span)
          fun got t' => got = (type, ref) ∧ t'.Typed key := by
  simp only [memberAccess, Check.bind_ok, Check.symbols_ok] at run
  obtain ⟨_, _, ⟨rfl, rfl⟩, result, after, typed, run⟩ := run
  obtain ⟨moves, known, later⟩ := memberType_follows moving ready found typed
  obtain ⟨now, present, -⟩ := Symbols.member?_of_shape moves.leads.shape found
  split at run
  next bare =>
    simp only [Check.bind_ok, Check.symbols_ok, Check.guard_ok, Check.pure_ok, Prod.mk.injEq] at run
    obtain ⟨_, _, ⟨rfl, rfl⟩, empty, ⟨rfl, rfl⟩, rfl⟩ := run
    refine ⟨moves, known, ⟨_, _, rfl⟩, ?_⟩
    intro t twin mirrored shaped
    refine .given fun chased still leads readyToo trails => ?_
    have kind := MemberSymbol.kind_eq_of_shape shaped
    have isClass := (trails.sees (moves.leads.trans leads)).isClass key.owner
    unfold memberAccess
    refine .symbols (.bind (later t twin mirrored) moves.leads (.refl _) ?_)
    rintro type' v steps ⟨rfl, knownToo⟩
    simp only [kind, isClass, bare, if_true]
    refine .given fun _ _ _ _ trails => .symbols ?_
    obtain ⟨last, listed, -⟩ := Symbols.member?_of_shape steps.shape mirrored
    have params := (trails.agrees moves.consistent leads known knownToo present listed).2
    simp only [present, Option.map_some, Option.getD_some] at empty
    simp only [listed, Option.map_some, Option.getD_some, params, empty]
    exact .pure ⟨rfl, knownToo⟩
  next bare =>
    simp only [Check.pure_ok, Prod.mk.injEq] at run
    obtain ⟨⟨rfl, rfl⟩, rfl⟩ := run
    refine ⟨moves, known, ⟨_, _, rfl⟩, ?_⟩
    intro t twin mirrored shaped
    refine .given fun chased still leads readyToo trails => ?_
    have kind := MemberSymbol.kind_eq_of_shape shaped
    have isClass := (trails.sees (moves.leads.trans leads)).isClass key.owner
    unfold memberAccess
    refine .symbols (.bind (later t twin mirrored) moves.leads (.refl _) ?_)
    rintro type' v steps ⟨rfl, knownToo⟩
    simp only [kind, isClass, bare]
    exact .pure ⟨rfl, knownToo⟩

theorem knows_member {u : Checking σ} {typed : TypedExpr} (named : typed.calleeMember? = some key)
    (known : u.Typed key) : u.Knows typed := by
  intro other same
  rw [named, Option.some.injEq] at same
  exact same ▸ known

theorem ownMember_follows (moving : w.Moving n) (ready : s.Consistent w.env n)
    (run : ownMember (checkMember w.env n) innermost callee span name owner s = .ok found s') :
    w.Moves n s s' ∧ (∀ typed, found = some typed → s'.Knows typed) ∧
      ∀ t, w.Follows s s' t (ownMember w.reply innermost callee span name owner)
        fun got t' => got = found ∧ ∀ typed, got = some typed → t'.Knows typed := by
  simp only [ownMember, Check.bind_ok, Check.symbols_ok] at run
  obtain ⟨_, _, ⟨rfl, rfl⟩, run⟩ := run
  cases sought : (s.symbols.get owner).find? name with
  | none =>
    simp only [sought, Check.pure_ok] at run
    obtain ⟨rfl, rfl⟩ := run
    refine ⟨.refl ready, by simp, fun t => .given fun _ _ leads _ trails => ?_⟩
    have missing : t.symbols.member? ⟨owner, name⟩ = none := (trails.sees leads).missing sought
    change (t.symbols.get owner).find? name = none at missing
    unfold ownMember
    refine .symbols ?_
    simp only [missing]
    exact .pure ⟨rfl, by simp⟩
  | some member =>
    have present : s.symbols.member? ⟨owner, name⟩ = some member := sought
    simp only [sought] at run
    cases inner : member.nested with
    | some nested =>
      simp only [inner, Check.pure_ok] at run
      obtain ⟨rfl, rfl⟩ := run
      have known : ∀ (u : Checking σ) (typed : TypedExpr),
          some (TypedExpr.name span (.space nested) name (.container nested)) = some typed → u.Knows typed := by
        rintro u _ ⟨⟩ key impossible
        simp [TypedExpr.calleeMember?] at impossible
      refine ⟨.refl ready, known s, fun t => .given fun _ _ leads _ trails => ?_⟩
      obtain ⟨twin, mirrored, shaped⟩ := (trails.sees leads).found present
      have mirrored : (t.symbols.get owner).find? name = some twin := mirrored
      unfold ownMember
      refine .symbols ?_
      simp only [mirrored, (MemberSymbol.nested_eq_of_shape shaped).trans inner]
      exact .pure ⟨rfl, known t⟩
    | none =>
      simp only [inner, Check.guard_ok, Check.bind_ok, Check.pure_ok] at run
      obtain ⟨reached, ⟨type, ref⟩, after, accessed, rfl, rfl⟩ := run
      obtain ⟨moves, known, ⟨_, _, rfl⟩, later⟩ := memberAccess_follows moving ready present accessed
      have named (u : Checking σ) (known : u.Typed ⟨owner, name⟩) {ofClass onThis auto : Bool} :
          ∀ typed, some (TypedExpr.name span type name (.member ⟨owner, name⟩ ofClass onThis auto)) =
            some typed → u.Knows typed := by
        rintro _ ⟨⟩
        exact knows_member rfl known
      refine ⟨moves, named after known, fun t => .given fun _ _ leads _ trails => ?_⟩
      have sees := trails.sees (moves.leads.trans leads)
      obtain ⟨twin, mirrored, shaped⟩ := sees.found present
      have found : (t.symbols.get owner).find? name = some twin := mirrored
      unfold ownMember
      refine .symbols ?_
      simp only [found, (MemberSymbol.nested_eq_of_shape shaped).trans inner, sees.isClass, reached]
      refine .bind (later t twin mirrored shaped) moves.leads (.refl _) ?_
      rintro _ v - ⟨rfl, knownToo⟩
      exact .pure ⟨rfl, named v knownToo⟩

theorem select_follows (moving : w.Moving n) (ready : s.Consistent w.env n)
    (run : select (checkMember w.env n) span object name callee s = .ok typed s') :
    w.Moves n s s' ∧ s'.Knows typed ∧ ∀ t other, object.Alike other →
      w.Follows s s' t (select w.reply span other name callee)
        fun got t' => typed.Alike got ∧ t'.Knows got := by
  unfold select at run
  cases holder : object.type.container? with
  | none => simp [holder, Check.bind_ok, Check.fail_ok] at run
  | some owner =>
    simp only [holder, Check.bind_ok, Check.symbols_ok] at run
    obtain ⟨_, _, ⟨rfl, rfl⟩, run⟩ := run
    cases sought : (s.symbols.get owner).find? name with
    | none => simp [sought, Check.bind_ok, Check.fail_ok] at run
    | some member =>
      have present : s.symbols.member? ⟨owner, name⟩ = some member := sought
      have alike : ∀ (type : Ty) (ref : Ref) (other : TypedExpr),
          TypedExpr.Alike (.select span type object name ref) (.select span type other name ref) := by
        intro type ref other
        refine ⟨rfl, rfl, ?_, by simp⟩
        cases ref <;> rfl
      simp only [sought] at run
      cases inner : member.nested with
      | some nested =>
        simp only [inner, Check.pure_ok] at run
        obtain ⟨rfl, rfl⟩ := run
        have known (u : Checking σ) (object : TypedExpr) :
            u.Knows (.select span (.space nested) object name (.container nested)) := by
          intro key impossible
          simp [TypedExpr.calleeMember?] at impossible
        refine ⟨.refl ready, known s object, fun t other same => .given fun _ _ leads _ trails => ?_⟩
        obtain ⟨twin, mirrored, shaped⟩ := (trails.sees leads).found present
        have found : (t.symbols.get owner).find? name = some twin := mirrored
        unfold select
        simp only [same.type, holder]
        refine .symbols ?_
        simp only [found, (MemberSymbol.nested_eq_of_shape shaped).trans inner]
        exact .pure ⟨alike _ _ other, known t other⟩
      | none =>
        simp only [inner, Check.guard_ok, Check.bind_ok, Check.pure_ok] at run
        obtain ⟨reached, ⟨type, ref⟩, after, accessed, rfl, rfl⟩ := run
        obtain ⟨moves, known, ⟨_, _, rfl⟩, later⟩ := memberAccess_follows moving ready present accessed
        refine ⟨moves, knows_member rfl known, fun t other same => .given fun _ _ leads _ trails => ?_⟩
        have sees := trails.sees (moves.leads.trans leads)
        obtain ⟨twin, mirrored, shaped⟩ := sees.found present
        have found : (t.symbols.get owner).find? name = some twin := mirrored
        unfold select
        simp only [same.type, holder]
        refine .symbols ?_
        simp only [found, (MemberSymbol.nested_eq_of_shape shaped).trans inner, sees.isClass, reached]
        refine .bind (later t twin mirrored shaped) moves.leads (.refl _) ?_
        rintro _ v - ⟨rfl, knownToo⟩
        exact .pure ⟨alike _ _ other, knows_member rfl knownToo⟩

theorem selectAll_follows (moving : w.Moving n) (ready : s.Consistent w.env n) (known : s.Knows object)
    (run : selectAll (checkMember w.env n) span callee object names s = .ok typed s') :
    w.Moves n s s' ∧ s'.Knows typed ∧ ∀ t other, object.Alike other → t.Knows other →
      w.Follows s s' t (selectAll w.reply span callee other names)
        fun got t' => typed.Alike got ∧ t'.Knows got := by
  induction names generalizing s object with
  | nil =>
    simp only [selectAll, Check.pure_ok] at run
    obtain ⟨rfl, rfl⟩ := run
    exact ⟨.refl ready, known, fun t other same knownToo => .pure ⟨same, knownToo⟩⟩
  | cons name rest ih =>
    simp only [selectAll, Check.bind_ok] at run
    obtain ⟨next, after, selected, run⟩ := run
    obtain ⟨first, knownNext, one⟩ := select_follows moving ready selected
    obtain ⟨second, knownLast, others⟩ := ih first.consistent knownNext run
    refine ⟨first.trans second, knownLast, fun t other same _ => ?_⟩
    refine .bind (one t other same) first.leads second.leads ?_
    rintro got v - ⟨sameNext, knownToo⟩
    exact others v got sameNext knownToo

theorem globalName_follows (ready : s.Consistent w.env n)
    (run : globalName w.env span name callee s = .ok typed s') :
    w.Moves n s s' ∧ s'.Knows typed ∧ ∀ t, w.Follows s s' t (globalName w.other span name callee)
      fun got t' => typed.Alike got ∧ t'.Knows got := by
  have nameless : ∀ (u : Checking σ) (ref : Ref) (type : Ty), (∀ key ofClass onThis auto,
      ref ≠ .member key ofClass onThis auto) → u.Knows (.name span type name ref) := by
    intro u ref type other key named
    cases ref with
    | member owner ofClass onThis auto => exact absurd rfl (other owner ofClass onThis auto)
    | bound | container | builtinShow => simp [TypedExpr.calleeMember?] at named
  unfold globalName at run
  cases listed : (w.env.items.lookup name <|> w.env.globals.lookup name) with
  | some owner =>
    simp only [listed, Check.pure_ok] at run
    obtain ⟨rfl, rfl⟩ := run
    refine ⟨.refl ready, nameless s _ _ (by simp), fun t => .given fun chased _ _ _ _ => ?_⟩
    unfold globalName
    simp only [chased.items, chased.globals, listed]
    exact .pure ⟨.refl _, nameless t _ _ (by simp)⟩
  | none =>
    simp only [listed] at run
    split at run
    next isShow =>
      split at run
      next applied =>
        simp only [Check.pure_ok] at run
        obtain ⟨rfl, rfl⟩ := run
        refine ⟨.refl ready, nameless s _ _ (by simp), fun t => .given fun chased _ _ _ _ => ?_⟩
        unfold globalName
        subst isShow
        simp only [chased.items, chased.globals, listed, applied, if_true]
        exact .pure ⟨.refl _, nameless t _ _ (by simp)⟩
      next => simp [Check.fail_ok] at run
    next => simp [Check.fail_ok] at run

/-- A lookup that has come as far as `scope`. -/
def NameFollows (w : Window σ) (span : Span) (name : String) (callee innermost : Bool) (scope : Scope) :
    Prop :=
  ∀ n, w.Moving n → scope.Laid w.home → ∀ {s s' : Checking σ} {typed : TypedExpr},
    s.Consistent w.env n →
    resolveName w.env (checkMember w.env n) span name callee innermost scope s = .ok typed s' →
    w.Moves n s s' ∧ s'.Knows typed ∧ ∀ t other, scope.Alike other → other.Laid w.home →
      w.Follows s s' t (resolveName w.other w.reply span name callee innermost other)
        fun got t' => typed.Alike got ∧ t'.Knows got

def PathFollows (w : Window σ) (span : Span) (head : String) (tail : List String) (callee : Bool)
    (scope : Scope) : Prop :=
  ∀ n, w.Moving n → scope.Laid w.home → ∀ {s s' : Checking σ} {typed : TypedExpr},
    s.Consistent w.env n →
    resolvePath w.env (checkMember w.env n) span head tail callee scope s = .ok typed s' →
    w.Moves n s s' ∧ s'.Knows typed ∧ ∀ t other, scope.Alike other → other.Laid w.home →
      w.Follows s s' t (resolvePath w.other w.reply span head tail callee other)
        fun got t' => typed.Alike got ∧ t'.Knows got

def WildcardFollows (w : Window σ) (span : Span) (name : String) (callee : Bool) (frame : Frame)
    (outer : Scope) (imports : List ScopedImport) : Prop :=
  ∀ n, w.Moving n → Scope.Laid w.home ({ frame with imports } :: outer) →
    ∀ {s s' : Checking σ} {found : Option TypedExpr}, s.Consistent w.env n →
    resolveWildcard w.env (checkMember w.env n) span name callee frame outer imports s = .ok found s' →
    w.Moves n s s' ∧ (∀ typed, found = some typed → s'.Knows typed) ∧ ∀ t frame' outer',
      frame.Alike frame' → outer.Alike outer' →
      Scope.Laid w.home ({ frame' with imports } :: outer') →
      w.Follows s s' t (resolveWildcard w.other w.reply span name callee frame' outer' imports)
        fun got t' => Option.Rel TypedExpr.Alike found got ∧ ∀ typed, got = some typed → t'.Knows typed

def ImportFollows (w : Window σ) (own : ScopedImport) (scope : Scope) : Prop :=
  ∀ n, w.Moving n → w.home own.key = some (own, scope) → scope.Laid w.home →
    ∀ {s s' : Checking σ} {path : TypedExpr}, s.Consistent w.env n →
    importPath w.env (checkMember w.env n) own scope s = .ok path s' →
    w.Moves n s s' ∧ ∀ t, w.Follows s s' t (importPath w.other w.reply own scope)
      fun got _ => got.type = path.type

theorem aliased_alike {path got : TypedExpr} (same : path.Alike got) :
    TypedExpr.Alike (.aliased span path.type name path) (.aliased span got.type name got) :=
  ⟨rfl, same.type, by simpa only [TypedExpr.calleeMember?] using same.calleeMember?, by simp⟩

/-- Both checks find the same among the members of a frame. -/
def MembersFollow (w : Window σ) (span : Span) (name : String) (callee innermost : Bool) (frame : Frame)
    (own : Option TypedExpr) (s s' : Checking σ) : Prop :=
  ∀ t (twin : Frame), twin.container = frame.container →
    w.Follows s s' t (match twin.container with
      | some id => ownMember w.reply innermost callee span name id
      | none => return none)
      fun got t' => got = own ∧ ∀ typed, got = some typed → t'.Knows typed

/-- The members of the container of a frame, looked up by a bare name. -/
theorem frameMember_follows {frame : Frame} (moving : w.Moving n) (ready : s.Consistent w.env n)
    (run : (match frame.container with
      | some id => ownMember (checkMember w.env n) innermost callee span name id
      | none => return none) s = .ok own s') :
    w.Moves n s s' ∧ (∀ typed, own = some typed → s'.Knows typed) ∧
      MembersFollow w span name callee innermost frame own s s' := by
  cases holder : frame.container with
  | none =>
    simp only [holder, Check.pure_ok] at run
    obtain ⟨rfl, rfl⟩ := run
    refine ⟨.refl ready, by simp, fun t twin same => ?_⟩
    simp only [same, holder]
    exact .pure ⟨rfl, by simp⟩
  | some owner =>
    simp only [holder] at run
    obtain ⟨moves, known, follows⟩ := ownMember_follows moving ready run
    refine ⟨moves, known, fun t twin same => ?_⟩
    simp only [same, holder]
    exact follows t

theorem NameFollows.outside : NameFollows w span name callee innermost [] := by
  intro n moving _ s s' typed ready run
  rw [resolveName] at run
  obtain ⟨moves, known, follows⟩ := globalName_follows ready run
  refine ⟨moves, known, ?_⟩
  rintro t _ ⟨⟩ _
  rw [resolveName]
  exact follows t

theorem NameFollows.bound {frame : Frame} {outer : Scope} (bound : frame.locals.lookup name = some found) :
    NameFollows w span name callee innermost (frame :: outer) := by
  intro n moving _ s s' typed ready run
  rw [resolveName] at run
  simp only [bound, Check.pure_ok] at run
  obtain ⟨rfl, rfl⟩ := run
  have nameless (u : Checking σ) (type : Ty) (id : LocalId) : u.Knows (.name span type name (.bound id)) := by
    intro key impossible
    simp [TypedExpr.calleeMember?] at impossible
  refine ⟨.refl ready, nameless s _ _, ?_⟩
  intro t other alike _
  cases alike with
  | @cons _ twin _ rest head tail =>
    have same := head.locals.lookup name
    rw [bound, Option.map_some, Option.map_eq_some_iff] at same
    obtain ⟨local', listed, type⟩ := same
    rw [resolveName]
    simp only [listed]
    exact .pure ⟨⟨rfl, type, rfl, by simp⟩, nameless t _ _⟩

section Frames

variable {frame twin : Frame} {outer rest : Scope}

/-- The lookup of a name behind the locals and the members of a frame: in its imports, then further out. -/
def resolveBehind (env : CheckEnv σ) (visit : Visit σ) (span : Span) (name : String) (callee innermost : Bool)
    (frame : Frame) (outer : Scope) : Check σ TypedExpr :=
  match findSelector name frame.imports with
  | some found => do
    let path ← resolvePath env visit span found.decl.head (found.decl.tail ++ [found.source]) callee
      ({ frame with imports := found.earlier } :: outer)
    return .aliased span path.type name path
  | none => do
    match ← resolveWildcard env visit span name callee frame outer frame.imports with
    | some found => return found
    | none => resolveName env visit span name callee (innermost && frame.container.isNone) outer

/-- A lookup that goes on behind the locals and the members of a frame. -/
def BehindFollows (w : Window σ) (span : Span) (name : String) (callee innermost : Bool) (frame : Frame)
    (outer : Scope) : Prop :=
  ∀ n, w.Moving n → Scope.Laid w.home (frame :: outer) → ∀ {s s' : Checking σ} {typed : TypedExpr},
    s.Consistent w.env n →
    resolveBehind w.env (checkMember w.env n) span name callee innermost frame outer s = .ok typed s' →
    w.Moves n s s' ∧ s'.Knows typed ∧ ∀ t twin rest, frame.Alike twin → outer.Alike rest →
      Scope.Laid w.home (twin :: rest) →
      w.Follows s s' t (resolveBehind w.other w.reply span name callee innermost twin rest)
        fun got t' => typed.Alike got ∧ t'.Knows got

theorem NameFollows.unbound (unbound : frame.locals.lookup name = none)
    (behind : BehindFollows w span name callee innermost frame outer) :
    NameFollows w span name callee innermost (frame :: outer) := by
  intro n moving laid s s' typed ready run
  rw [resolveName_unbound unbound] at run
  simp only [Check.bind_ok] at run
  obtain ⟨own, after, looked, run⟩ := run
  obtain ⟨first, knownOwn, one⟩ := frameMember_follows moving ready looked
  cases own with
  | some found =>
    simp only [Check.pure_ok] at run
    obtain ⟨rfl, rfl⟩ := run
    refine ⟨first, knownOwn found rfl, ?_⟩
    intro t other alike laidToo
    obtain ⟨twin, rest, rfl, head, tail, absent⟩ := alike.split unbound
    rw [resolveName_unbound absent]
    refine .bind (one t twin head.container) first.leads (.refl _) ?_
    rintro _ v - ⟨rfl, knownToo⟩
    exact .pure ⟨.refl _, knownToo _ rfl⟩
  | none =>
    obtain ⟨moves, known, follows⟩ := behind n moving laid first.consistent run
    refine ⟨first.trans moves, known, ?_⟩
    intro t other alike laidToo
    obtain ⟨twin, rest, rfl, head, tail, absent⟩ := alike.split unbound
    rw [resolveName_unbound absent]
    refine .bind (one t twin head.container) first.leads moves.leads ?_
    rintro _ v - ⟨rfl, -⟩
    exact follows v twin rest head tail laidToo

/-- A selector of the frame takes the name. -/
theorem BehindFollows.selected (sought : findSelector name frame.imports = some found)
    (path : PathFollows w span found.decl.head (found.decl.tail ++ [found.source]) callee
      ({ frame with imports := found.earlier } :: outer)) :
    BehindFollows w span name callee innermost frame outer := by
  intro n moving laid s s' typed ready run
  unfold resolveBehind at run
  simp only [sought, Check.bind_ok, Check.pure_ok] at run
  obtain ⟨chosen, last, resolved, rfl, rfl⟩ := run
  have front := findSelector_suffix sought
  obtain ⟨moves, known, follows⟩ := path n moving (laid.earlier front) ready resolved
  refine ⟨moves, knows_aliased known, ?_⟩
  intro t twin rest head tail laidToo
  unfold resolveBehind
  simp only [head.imports, sought]
  have behind : found.earlier <:+ twin.imports := head.imports ▸ front
  refine .bind (follows t ({ twin with imports := found.earlier } :: rest)
    (.cons ⟨head.locals, head.container, rfl⟩ tail) (laidToo.earlier behind)) moves.leads (.refl _) ?_
  rintro got u - ⟨same, knownToo⟩
  exact .pure ⟨aliased_alike same, knows_aliased knownToo⟩

/-- No selector takes the name. A wildcard of the frame does, or the lookup goes on further out. -/
theorem BehindFollows.outward (sought : findSelector name frame.imports = none)
    (wildcards : WildcardFollows w span name callee frame outer frame.imports)
    (further : NameFollows w span name callee (innermost && frame.container.isNone) outer) :
    BehindFollows w span name callee innermost frame outer := by
  intro n moving laid s s' typed ready run
  unfold resolveBehind at run
  simp only [sought, Check.bind_ok] at run
  obtain ⟨found, last, picked, run⟩ := run
  obtain ⟨moves, known, follows⟩ := wildcards n moving laid ready picked
  cases found with
  | some found =>
    simp only [Check.pure_ok] at run
    obtain ⟨rfl, rfl⟩ := run
    refine ⟨moves, known found rfl, ?_⟩
    intro t twin rest head tail laidToo
    unfold resolveBehind
    simp only [head.imports, sought]
    refine .bind (follows t twin rest head tail (head.imports ▸ laidToo)) moves.leads (.refl _) ?_
    rintro _ v - ⟨⟨same⟩, knownToo⟩
    exact .pure ⟨same, knownToo _ rfl⟩
  | none =>
    obtain ⟨onward, knownLast, outside⟩ := further n moving laid.2 moves.consistent run
    refine ⟨moves.trans onward, knownLast, ?_⟩
    intro t twin rest head tail laidToo
    unfold resolveBehind
    simp only [head.imports, sought]
    refine .bind (follows t twin rest head tail (head.imports ▸ laidToo)) moves.leads onward.leads ?_
    rintro _ v - ⟨⟨⟩, -⟩
    simp only [head.container]
    exact outside v rest tail laidToo.2

theorem WildcardFollows.none : WildcardFollows w span name callee frame outer [] := by
  intro n moving _ s s' found ready run
  rw [resolveWildcard] at run
  simp only [Check.pure_ok] at run
  obtain ⟨rfl, rfl⟩ := run
  refine ⟨.refl ready, by simp, ?_⟩
  intro t twin rest _ _ _
  rw [resolveWildcard]
  exact .pure ⟨.none, by simp⟩

/-- A wildcard import is looked into. It stands in the same place for both checks, and its target has the same
members. -/
theorem resolveWildcard_follows {post : Option TypedExpr → Checking σ → Prop} {target : TypedExpr}
    {own : ScopedImport} {between : Checking σ} (wildcard : own.decl.wildcard = true)
    (stands : w.home own.key = some (own, { frame with imports := earlier } :: outer))
    (laid : Scope.Laid w.home ({ twin with imports := own :: earlier } :: rest))
    (one : w.Follows s between t (importPath w.other w.reply own ({ frame with imports := earlier } :: outer))
      fun got _ => got.type = target.type)
    (leads : s.Leads between) (onward : between.Leads s')
    (further : ∀ v, w.Follows between s' v
      (if (((target.type.container?.map between.symbols.get).getD {}).find? name).isSome then do
        let found ← resolvePath w.other w.reply span own.decl.head (own.decl.tail ++ [name]) callee
          ({ twin with imports := earlier } :: rest)
        return some (.aliased span found.type name found)
      else resolveWildcard w.other w.reply span name callee twin rest earlier) post) :
    w.Follows s s' t (resolveWildcard w.other w.reply span name callee twin rest (own :: earlier)) post := by
  have same := (laid.1 own earlier (List.suffix_refl _)).symm.trans stands
  simp only [Option.some.injEq, Prod.mk.injEq, true_and] at same
  rw [resolveWildcard]
  simp only [wildcard, if_true]
  rw [same]
  refine .bind one leads onward ?_
  intro got v steps type
  refine .given fun _ _ ends _ trails => .symbols ?_
  have members : (((got.type.container?.map v.symbols.get).getD {}).find? name).isSome =
      (((target.type.container?.map between.symbols.get).getD {}).find? name).isSome := by
    rw [type]
    cases target.type.container? with
    | none => rfl
    | some owner =>
      have same := congrArg Option.isSome ((trails.sees (onward.trans ends)).member? ⟨owner, name⟩)
      simp only [Option.isSome_map] at same
      exact same
  rw [members, ← same]
  exact further v

theorem WildcardFollows.wildcard {own : ScopedImport} (wildcard : own.decl.wildcard = true)
    (path : ImportFollows w own ({ frame with imports := earlier } :: outer))
    (member : PathFollows w span own.decl.head (own.decl.tail ++ [name]) callee
      ({ frame with imports := earlier } :: outer))
    (further : WildcardFollows w span name callee frame outer earlier) :
    WildcardFollows w span name callee frame outer (own :: earlier) := by
  intro n moving laid s s' found ready run
  rw [resolveWildcard] at run
  simp only [wildcard, if_true, Check.bind_ok, Check.symbols_ok] at run
  obtain ⟨target, between, resolved, _, _, ⟨rfl, rfl⟩, run⟩ := run
  have stands := laid.1 own earlier (List.suffix_refl _)
  have front : Scope.Laid w.home ({ frame with imports := earlier } :: outer) :=
    laid.earlier (List.suffix_cons own earlier)
  obtain ⟨first, one⟩ := path n moving stands front ready resolved
  split at run
  next there =>
    simp only [Check.bind_ok, Check.pure_ok] at run
    obtain ⟨typed, last, picked, rfl, rfl⟩ := run
    obtain ⟨moves, known, follows⟩ := member n moving front first.consistent picked
    refine ⟨first.trans moves, by rintro _ ⟨⟩; exact knows_aliased known, ?_⟩
    intro t twin rest head tail laidToo
    refine resolveWildcard_follows wildcard stands laidToo (one t) first.leads moves.leads fun v => ?_
    rw [if_pos there]
    refine .bind (follows v ({ twin with imports := earlier } :: rest)
      (.cons ⟨head.locals, head.container, rfl⟩ tail)
      (laidToo.earlier (List.suffix_cons own earlier))) moves.leads (.refl _) ?_
    rintro got u - ⟨same, knownToo⟩
    exact .pure ⟨.some (aliased_alike same), by rintro _ ⟨⟩; exact knows_aliased knownToo⟩
  next missing =>
    obtain ⟨moves, known, follows⟩ := further n moving front first.consistent run
    refine ⟨first.trans moves, known, ?_⟩
    intro t twin rest head tail laidToo
    refine resolveWildcard_follows wildcard stands laidToo (one t) first.leads moves.leads fun v => ?_
    rw [if_neg missing]
    exact follows v twin rest head tail (laidToo.earlier (List.suffix_cons own earlier))

theorem WildcardFollows.named {own : ScopedImport} (named : ¬own.decl.wildcard = true)
    (further : WildcardFollows w span name callee frame outer earlier) :
    WildcardFollows w span name callee frame outer (own :: earlier) := by
  intro n moving laid s s' found ready run
  rw [resolveWildcard] at run
  simp only [named] at run
  obtain ⟨moves, known, follows⟩ := further n moving (laid.earlier (List.suffix_cons own earlier)) ready run
  refine ⟨moves, known, ?_⟩
  intro t twin rest head tail laidToo
  rw [resolveWildcard]
  simp only [named]
  exact follows t twin rest head tail (laidToo.earlier (List.suffix_cons own earlier))

end Frames

theorem PathFollows.of_name (first : NameFollows w span head (callee && tail.isEmpty) true scope) :
    PathFollows w span head tail callee scope := by
  intro n moving laid s s' typed ready run
  rw [resolvePath] at run
  simp only [Check.bind_ok] at run
  obtain ⟨start, after, resolved, run⟩ := run
  obtain ⟨moves, known, one⟩ := first n moving laid ready resolved
  obtain ⟨rest, knownLast, others⟩ := selectAll_follows moving moves.consistent known run
  refine ⟨moves.trans rest, knownLast, ?_⟩
  intro t other alike laidToo
  rw [resolvePath]
  refine .bind (one t other alike laidToo) moves.leads rest.leads ?_
  rintro got v - ⟨same, knownToo⟩
  exact others v got same knownToo

section Imports

variable {own : ScopedImport}

/-- A path that the leading check has on record for an import is one that the other check can resolve. -/
theorem recorded_follows (path : PathFollows w own.decl.span own.decl.head own.decl.tail false scope)
    (stands : w.home own.key = some (own, scope)) (laid : scope.Laid w.home) (chased : w.Chased)
    (ready : t.Consistent w.other w.room) (trails : w.Trails t) (absent : w.first.paths.lookup own.key = none)
    (listed : (own.key, known) ∈ w.last.paths) :
    known.type.container?.isNone = false ∧
      w.Lands (fun got t' => t.Advances w.other w.base w.room t' ∧ w.Trails t' ∧ known.Alike got)
        (resolvePath w.other w.reply own.decl.span own.decl.head own.decl.tail false scope t) := by
  have run := (chased.records.paths own.key known listed).resolve_left fun earlier => by
    simpa using List.lookup_eq_none_iff.mp absent _ earlier
  obtain ⟨-, origin, place, m, u, v, stood, -, before, still, ran, holder, lead⟩ := run
  rw [stands, Option.some.injEq, Prod.mk.injEq] at stood
  obtain ⟨rfl, rfl⟩ := stood
  obtain ⟨-, -, follows⟩ := path m (chased.moving m) laid before ran
  refine ⟨holder, Window.Lands.imp (follows t scope (.refl scope) laid chased still lead ready trails) ?_⟩
  exact fun got t' done => ⟨done.1, done.2.1, done.2.2.1⟩

/-- However the leading check came by the path of an import, a run on record has led to it. -/
theorem importPath_answers (path : PathFollows w own.decl.span own.decl.head own.decl.tail false scope)
    (stands : w.home own.key = some (own, scope)) (laid : scope.Laid w.home) {typed : TypedExpr}
    (listed : (own.key, typed) ∈ s'.paths) :
    w.Follows s s' t (importPath w.other w.reply own scope) fun got _ => got.type = typed.type := by
  refine .given fun chased _ leads ready trails => ?_
  have listed := leads.paths listed
  rw [importPath]
  refine .get ?_
  cases cached : t.paths.lookup own.key with
  | some known => exact .pure ((trails.paths own.key known (mem_of_lookup cached)).2 typed listed)
  | none =>
    have resolves {known : TypedExpr} (listed : (own.key, known) ∈ w.last.paths) :=
      recorded_follows path stands laid chased ready trails (trails.missing own.key cached) listed
    intro _ _ _ _ _
    refine Window.Lands.bind (resolves listed).2 ?_
    rintro got v ran ⟨steps, trails, same⟩
    simp only [same.type, (resolves listed).1, Bool.false_eq_true, if_false]
    refine ⟨steps.trans (.of_fields steps.consistent rfl rfl rfl (Nat.le_refl _)),
      trails.cache listed ?_, same.type⟩
    intro known others
    have lands := (resolves others).2
    rw [ran] at lands
    exact lands.2.2.type

theorem ImportFollows.of_path (path : PathFollows w own.decl.span own.decl.head own.decl.tail false scope) :
    ImportFollows w own scope := by
  intro n moving stands laid s s' typed ready run
  rw [importPath] at run
  simp only [Check.bind_ok, Check.get_ok] at run
  obtain ⟨_, _, ⟨rfl, rfl⟩, run⟩ := run
  cases cached : s.paths.lookup own.key with
  | some known =>
    simp only [cached, Check.pure_ok] at run
    obtain ⟨rfl, rfl⟩ := run
    exact ⟨.refl ready, fun t => importPath_answers path stands laid (mem_of_lookup cached)⟩
  | none =>
    simp only [cached, Check.bind_ok, Check.guard_ok, Check.modify_ok, Check.pure_ok] at run
    obtain ⟨found, after, resolved, holder, _, _, rfl, rfl, rfl⟩ := run
    have moves := (path n moving laid ready resolved).1
    have stored : after.Leads { after with paths := (own.key, found) :: after.paths } :=
      .of_fields rfl rfl (List.subset_cons_self _ _) (List.Subset.refl _)
    refine ⟨⟨?_, moves.leads.trans stored, ⟨?_, ?_⟩⟩,
      fun t => importPath_answers path stands laid List.mem_cons_self⟩
    · exact moves.advances.trans (.of_fields moves.consistent rfl rfl rfl (Nat.le_refl _))
    · intro key waiting
      exact (moves.records.members key waiting).imp_right fun done => ⟨done.1, done.2.lead stored⟩
    · intro key path listed
      rcases List.mem_cons.mp listed with fresh | earlier
      · cases fresh
        exact .inr ⟨cached, own, scope, n, s, after, stands, laid, ready, .refl s, resolved,
          eq_false_of_ne_true holder, stored⟩
      · exact (moves.records.paths key path earlier).imp_right fun absent =>
          ⟨absent.1, absent.2.lead stored⟩

end Imports

/-- The lookups follow the imports of a frame and the frames of a scope, and so does the induction. -/
theorem resolve_follows (w : Window σ) :
    (∀ span name callee innermost scope, NameFollows w span name callee innermost scope) ∧
    (∀ span name callee frame outer imports, WildcardFollows w span name callee frame outer imports) ∧
    (∀ span head tail callee scope, PathFollows w span head tail callee scope) ∧
    ∀ own scope, ImportFollows w own scope := by
  refine resolveName.mutual_induct _ _ _ _ ?_ ?_ ?_ ?_ ?_ ?_ ?_ ?_
  · intro span name callee innermost
    exact .outside
  · intro span name callee innermost frame outer found bound
    exact .bound bound
  · intro span name callee innermost frame outer unbound selected wildcards further
    apply NameFollows.unbound unbound
    cases sought : findSelector name frame.imports with
    | some found => exact .selected sought (selected found sought)
    | none => exact .outward sought wildcards further
  · intro span name callee frame outer
    exact .none
  · intro span name callee frame outer own earlier wildcard path member further
    exact .wildcard wildcard path member further
  · intro span name callee frame outer own earlier named further
    exact .named named further
  · intro span head tail callee scope name
    exact .of_name name
  · intro own scope path
    exact .of_path path

theorem resolveName_follows (moving : w.Moving n) (laid : scope.Laid w.home)
    (ready : s.Consistent w.env n)
    (run : resolveName w.env (checkMember w.env n) span name callee innermost scope s = .ok typed s') :
    w.Moves n s s' ∧ s'.Knows typed ∧ ∀ t other, scope.Alike other → other.Laid w.home →
      w.Follows s s' t (resolveName w.other w.reply span name callee innermost other)
        fun got t' => typed.Alike got ∧ t'.Knows got :=
  (resolve_follows w).1 span name callee innermost scope n moving laid ready run

theorem importPath_follows (moving : w.Moving n) (stands : w.home own.key = some (own, scope))
    (laid : scope.Laid w.home) (ready : s.Consistent w.env n)
    (run : importPath w.env (checkMember w.env n) own scope s = .ok path s') :
    w.Moves n s s' ∧ ∀ t, w.Follows s s' t (importPath w.other w.reply own scope)
      fun got _ => got.type = path.type :=
  (resolve_follows w).2.2.2 own scope n moving stands laid ready run

/-- A written type is built in, or it is no type, or the path of a class. -/
theorem resolveType_cases (ref : TypeRef) :
    (∃ known, ∀ (env : CheckEnv σ) visit scope, resolveType env visit scope ref = pure known) ∨
    (∃ cause, ∀ (env : CheckEnv σ) visit scope, resolveType env visit scope ref = Check.fail ref.span cause) ∨
    ∃ head tail, ∀ (env : CheckEnv σ) visit scope, resolveType env visit scope ref = (do
      let path ← resolvePath env visit ref.span head tail false scope
      match path.type with
      | .space id =>
        if ((← Check.symbols).get id).isClass then return .object id
        else Check.fail ref.span (.notType ref.text)
      | _ => Check.fail ref.span (.notType ref.text)) := by
  unfold resolveType
  split
  · exact .inl ⟨_, fun _ _ _ => rfl⟩
  · exact .inl ⟨_, fun _ _ _ => rfl⟩
  · exact .inl ⟨_, fun _ _ _ => rfl⟩
  · exact .inr (.inl ⟨_, fun _ _ _ => rfl⟩)
  · exact .inr (.inr ⟨_, _, fun _ _ _ => rfl⟩)

theorem resolveType_follows (moving : w.Moving n) (laid : scope.Laid w.home)
    (ready : s.Consistent w.env n)
    (run : resolveType w.env (checkMember w.env n) scope ref s = .ok type s') :
    w.Moves n s s' ∧ ∀ t other, scope.Alike other → other.Laid w.home →
      w.Follows s s' t (resolveType w.other w.reply other ref) fun got _ => got = type := by
  rcases resolveType_cases (σ := σ) ref with ⟨known, builtin⟩ | ⟨cause, refused⟩ | ⟨head, tail, named⟩
  · rw [builtin] at run
    obtain ⟨rfl, rfl⟩ := Check.pure_ok.mp run
    refine ⟨.refl ready, fun t other _ _ => ?_⟩
    rw [builtin]
    exact .pure rfl
  · rw [refused] at run
    exact (Check.fail_ok.mp run).elim
  · rw [named] at run
    simp only [Check.bind_ok] at run
    obtain ⟨path, after, resolved, run⟩ := run
    obtain ⟨moves, -, follows⟩ := (resolve_follows w).2.2.1 _ _ _ _ _ n moving laid ready resolved
    cases space : path.type with
    | space cls =>
      simp only [space, Check.bind_ok, Check.symbols_ok] at run
      obtain ⟨_, _, ⟨rfl, rfl⟩, run⟩ := run
      split at run
      next isClass =>
        simp only [Check.pure_ok] at run
        obtain ⟨rfl, rfl⟩ := run
        refine ⟨moves, fun t other alike laidToo => ?_⟩
        rw [named]
        refine .bind (follows t other alike laidToo) moves.leads (.refl _) ?_
        rintro got v - ⟨same, -⟩
        refine .given fun _ _ leads _ trails => ?_
        simp only [same.type, space]
        refine .symbols ?_
        rw [(trails.sees leads).isClass, if_pos isClass]
        exact .pure rfl
      next => simp [Check.fail_ok] at run
    | error | int | str | unit | object => simp [space, Check.fail_ok] at run

end Typing

end ScriptShell
