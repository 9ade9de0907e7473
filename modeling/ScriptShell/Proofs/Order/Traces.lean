import ScriptShell.Proofs.Typing.Units

/-! Two checks that meet the members of a unit in different orders. One of them, the leading check, went
through; the other one follows it. Whatever the leading check did between two points of its run is on
record: for each member begun there and each import resolved there, a run that the following check can be
held against when it comes to the same member or import. The types the leading check arrived at are then
the only ones that the following check can arrive at, unless it is untimely: it may ask for the type of a
member it is in the middle of, or put a question to its host at another moment. -/
namespace ScriptShell

/-- Symbols that differ at most in the order of members and in what a check fills in. -/
structure Symbols.Alike (S T : Symbols) : Prop where
  isClass : ∀ id, (T.get id).isClass = (S.get id).isClass
  member? : ∀ key, (T.member? key).map (·.shape) = (S.member? key).map (·.shape)
  /-- Conversions are tried in the order of the members. -/
  conversions : ∀ id, Typing.ownConversions T id = Typing.ownConversions S id

/-- What a check makes of an expression, in some state. -/
def CheckEnv.Types (env : CheckEnv σ) (scope : Scope) (value : Expr) (typed : TypedExpr) : Prop :=
  ∃ n s t, Typing.checkValue env (Typing.checkMember env n) scope value s = .ok typed t

/-- The host answers otherwise than before. It gave a value for the initialiser of an inline member as the
accepted check has kept it, and refuses one for what the other check makes of the same initialiser, although
the symbols are alike. -/
def CheckEnv.AnswersOtherwise (env other : CheckEnv σ)
    (kept : List (MemberKey × CheckedBody)) (name reason : String) : Prop :=
  ∃ ask key decl scope init got, other.services.evaluate = some ask ∧
    env.decls.lookup key = some ⟨.val decl, scope⟩ ∧ decl.name = name ∧ decl.mode = .inline ∧
    (key, .val init) ∈ kept ∧ other.Types scope decl.init got ∧
    ∃ symbols later host after value, symbols.Alike later ∧
      (ask symbols init host).1 = .ok value ∧ (ask later got after).1 = .error reason

/-- Refusals of a check that depend on when it comes to a member: the type of a member is asked for in the
middle of its own check, or the host answers otherwise than in the accepted check, which kept the given
bodies. -/
def TypeCause.Untimely (env other : CheckEnv σ) (kept : List (MemberKey × CheckedBody)) :
    TypeCause → Prop
  | .recursiveMember _ _ => True
  | .inlineValue name reason => env.AnswersOtherwise other kept name reason
  | .foreignMissing name => ∃ ask, other.services.visible = some ask ∧
      (∃ host, (ask name host).1 = true) ∧ ∃ host, (ask name host).1 = false
  | _ => False

theorem TypeCause.Untimely.mono {env other : CheckEnv σ} {cause : TypeCause}
    {kept more : List (MemberKey × CheckedBody)} (untimely : cause.Untimely env other kept)
    (later : kept ⊆ more) : cause.Untimely env other more := by
  cases cause with
  | inlineValue name reason =>
    obtain ⟨ask, key, decl, scope, init, got, asked, listed, named, mode, body, rest⟩ := untimely
    exact ⟨ask, key, decl, scope, init, got, asked, listed, named, mode, later body, rest⟩
  | _ => exact untimely

namespace Symbols

variable {S T U V : Symbols}

theorem ownConversions_shape (S : Symbols) (id : ContainerId) :
    Typing.ownConversions S id =
      (((S.get id).members.map (·.shape)).filter Typing.isConversion).map
        fun member => ⟨member.name, ⟨id, member.name⟩⟩ := by
  unfold Typing.ownConversions
  rw [List.filter_map, List.map_map]
  rfl

theorem ownConversions_of_shape (same : T.shape = S.shape) (id : ContainerId) :
    Typing.ownConversions T id = Typing.ownConversions S id := by
  rw [ownConversions_shape, ownConversions_shape,
    ContainerSymbol.members_eq_of_shape (get_eq_of_shape same id)]

/-- Being alike is a matter of the shapes. -/
theorem Alike.of_shape (alike : S.Alike T) (left : U.shape = S.shape) (right : V.shape = T.shape) :
    U.Alike V where
  isClass id := by rw [isClass_of_shape left, isClass_of_shape right, alike.isClass]
  member? key := by rw [member?_eq_of_shape left, member?_eq_of_shape right, alike.member?]
  conversions id := by rw [ownConversions_of_shape left, ownConversions_of_shape right, alike.conversions]

theorem Alike.refl (S : Symbols) : S.Alike S := ⟨fun _ => rfl, fun _ => rfl, fun _ => rfl⟩

theorem Alike.symm (alike : S.Alike T) : T.Alike S :=
  ⟨fun id => (alike.isClass id).symm, fun key => (alike.member? key).symm,
    fun id => (alike.conversions id).symm⟩

theorem Alike.found (alike : S.Alike T) (found : S.member? key = some member) :
    ∃ other, T.member? key = some other ∧ other.shape = member.shape := by
  have same := alike.member? key
  rw [found, Option.map_some, Option.map_eq_some_iff] at same
  exact same

theorem Alike.missing (alike : S.Alike T) (missing : S.member? key = none) : T.member? key = none := by
  have same := alike.member? key
  rw [missing, Option.map_none, Option.map_eq_none_iff] at same
  exact same

end Symbols

/-- Every import in sight stands in its own place, which depends on nothing but its number. -/
def Scope.Laid (home : ImportKey → Option (ScopedImport × Scope)) : Scope → Prop
  | [] => True
  | frame :: outer =>
    (∀ own earlier, own :: earlier <:+ frame.imports →
      home own.key = some (own, { frame with imports := earlier } :: outer)) ∧ Scope.Laid home outer

namespace Scope

variable {home : ImportKey → Option (ScopedImport × Scope)} {frame : Frame} {outer : Scope}

theorem Laid.earlier (laid : Scope.Laid home (frame :: outer)) (earlier : imports <:+ frame.imports) :
    Scope.Laid home ({ frame with imports } :: outer) :=
  ⟨fun own front listed => laid.1 own front (listed.trans earlier), laid.2⟩

theorem Laid.locals (laid : Scope.Laid home outer) (locals : List (String × Local)) :
    Scope.Laid home ({ locals } :: outer) := by
  refine ⟨fun own earlier listed => ?_, laid⟩
  have none := listed.length_le
  simp at none

end Scope

namespace Checking

variable {σ : Type} {s t u : Checking σ} {S : Symbols} {key : MemberKey}

/-- What no visit of a member changes: the parameters of constructors, and the members that have no
body of their own. -/
structure Still (s t : Checking σ) : Prop where
  keys : t.progress.map (·.1) = s.progress.map (·.1)
  params : ∀ id, (t.symbols.get id).params = (s.symbols.get id).params
  member? : ∀ key, s.progress.lookup key = none → t.symbols.member? key = s.symbols.member? key

/-- A later state keeps what is known: the types of settled members, the bodies, and the paths of imports.
An import that is asked for while it is being resolved has several paths in the end. -/
structure Leads (s t : Checking σ) : Prop where
  below : ∀ S, t.Below S → s.Below S
  typed : ∀ key, s.Typed key → t.Typed key
  paths : s.paths ⊆ t.paths
  bodies : s.bodies ⊆ t.bodies
  still : s.Still t

theorem Still.refl (s : Checking σ) : s.Still s := ⟨rfl, fun _ => rfl, fun _ _ => rfl⟩

theorem listed_iff (same : t.progress.map (·.1) = s.progress.map (·.1)) (key : MemberKey) :
    t.progress.lookup key = none ↔ s.progress.lookup key = none := by
  have present := lookup_isSome_iff_of_keys same key
  rw [← Option.not_isSome_iff_eq_none, ← Option.not_isSome_iff_eq_none, present]

theorem Still.trans (first : s.Still t) (second : t.Still u) : s.Still u where
  keys := second.keys.trans first.keys
  params id := (second.params id).trans (first.params id)
  member? key absent :=
    (second.member? key ((listed_iff first.keys key).mpr absent)).trans (first.member? key absent)

theorem Leads.refl (s : Checking σ) : s.Leads s :=
  ⟨fun _ below => below, fun _ known => known, List.Subset.refl _, List.Subset.refl _, .refl s⟩

theorem Leads.trans (first : s.Leads t) (second : t.Leads u) : s.Leads u where
  below S later := first.below S (second.below S later)
  typed key known := second.typed key (first.typed key known)
  paths := List.Subset.trans first.paths second.paths
  bodies := List.Subset.trans first.bodies second.bodies
  still := first.still.trans second.still

theorem Leads.missing (leads : s.Leads t) {key : ImportKey} (absent : t.paths.lookup key = none) :
    s.paths.lookup key = none :=
  List.lookup_eq_none_iff.mpr fun entry listed =>
    List.lookup_eq_none_iff.mp absent entry (leads.paths listed)

/-- Where neither symbols nor progress change, a state leads to any that keeps the paths and the bodies. -/
theorem Leads.of_fields (symbols : t.symbols = s.symbols) (progress : t.progress = s.progress)
    (paths : s.paths ⊆ t.paths) (bodies : s.bodies ⊆ t.bodies) : s.Leads t where
  below S below := by
    refine ⟨symbols ▸ below.shape, ?_⟩
    intro key settled before after found later
    refine below.types key ⟨?_, ?_⟩ before after (symbols ▸ found) later
    · intro own listed
      exact settled.1 own (progress ▸ listed)
    · intro member present
      exact settled.2 member (symbols ▸ present)
  typed key known own listed := known own (progress ▸ listed)
  paths := paths
  bodies := bodies
  still := ⟨by rw [progress], fun _ => by rw [symbols], fun _ _ => by rw [symbols]⟩

theorem Leads.shape (leads : s.Leads t) : t.symbols.shape = s.symbols.shape :=
  (leads.below _ (.refl t)).shape

end Checking

open Checking Typing

/-- A stretch of the leading check, and the check that follows it. -/
structure Window (σ : Type) where
  env : CheckEnv σ
  /-- What the following check is about. -/
  other : CheckEnv σ
  base : Nat
  /-- How many members the following check may begin inside one another. -/
  room : Nat
  /-- The place of every import of the unit. -/
  home : ImportKey → Option (ScopedImport × Scope)
  first : Checking σ
  last : Checking σ

namespace Window

variable {σ α β : Type} {w : Window σ} {n : Nat} {s t u v s' : Checking σ} {key : MemberKey}

/-- Between two states a member was begun and its body checked. -/
def MemberRun (w : Window σ) (key : MemberKey) (s t : Checking σ) : Prop :=
  ∃ decl n u v, w.env.decls.lookup key = some decl ∧ u.Consistent w.env n ∧ Begun key false u ∧
    s.Still u ∧
    (∀ member, u.symbols.member? key = some member → member.params = [] ∧ member.constant = 0) ∧
    checkPending w.env (checkMember w.env n) key decl u = .ok () v ∧
    (v.mark key ⟨.done, true⟩).Leads t

/-- Between two states an import was resolved. -/
def PathRun (w : Window σ) (key : ImportKey) (path : TypedExpr) (s t : Checking σ) : Prop :=
  ∃ own place n u v, w.home key = some (own, place) ∧ place.Laid w.home ∧ u.Consistent w.env n ∧
    s.Still u ∧
    resolvePath w.env (checkMember w.env n) own.decl.span own.decl.head own.decl.tail false place u =
      .ok path v ∧
    path.type.container?.isNone = false ∧ v.Leads t

/-- Every member begun and every import resolved between two states is on record. -/
structure Records (w : Window σ) (s t : Checking σ) : Prop where
  members : ∀ key, s.progress.lookup key = some ⟨.pending, false⟩ →
    t.progress.lookup key = some ⟨.pending, false⟩ ∨
      t.progress.lookup key = some ⟨.done, true⟩ ∧ w.MemberRun key s t
  paths : ∀ key path, (key, path) ∈ t.paths →
    (key, path) ∈ s.paths ∨ s.paths.lookup key = none ∧ w.PathRun key path s t

/-- Steps of the leading check between members. -/
structure Moves (w : Window σ) (n : Nat) (s t : Checking σ) : Prop where
  advances : s.Advances w.env w.base n t
  leads : s.Leads t
  records : w.Records s t

/-- What the visits of the leading check do. -/
structure Moving (w : Window σ) (n : Nat) : Prop where
  keeps : VisitKeeps w.env w.base n (checkMember w.env n)
  moves : ∀ key s s', s.Consistent w.env n → checkMember w.env n key s = .ok () s' → w.Moves n s s'

/-- A state of the following check, held against the end of the stretch. -/
structure Trails (w : Window σ) (t : Checking σ) : Prop where
  alike : w.last.symbols.Alike t.symbols
  params : ∀ id, (t.symbols.get id).params = (w.last.symbols.get id).params
  listed : ∀ key, t.progress.lookup key = none ↔ w.last.progress.lookup key = none
  agree : ∀ key, t.Typed key → w.last.Typed key ∧ ∀ own twin,
    w.last.symbols.member? key = some own → t.symbols.member? key = some twin →
      twin.type = own.type ∧ twin.params = own.params
  paths : ∀ key path, (key, path) ∈ t.paths → (∃ own, (key, own) ∈ w.last.paths) ∧
    ∀ own, (key, own) ∈ w.last.paths → path.type = own.type
  pending : ∀ key, t.progress.lookup key = some ⟨.pending, false⟩ →
    w.first.progress.lookup key = some ⟨.pending, false⟩
  missing : ∀ key, t.paths.lookup key = none → w.first.paths.lookup key = none

/-- Visits of the following check. -/
abbrev reply (w : Window σ) : Visit σ := checkMember w.other w.room

/-- A run of the following check ends as it should, or it is refused as untimely. -/
def Lands (w : Window σ) (post : α → Checking σ → Prop) : EStateM.Result TypeError (Checking σ) α → Prop
  | .ok a t => post a t
  | .error error _ => error.cause.Untimely w.env w.other w.last.bodies

/-- What the following check is owed: that the stretch is on record, and that the members on record can
be visited. -/
structure Chased (w : Window σ) : Prop where
  moving : ∀ n, w.Moving n
  records : w.Records w.first w.last
  services : w.other.services = w.env.services
  items : w.other.items = w.env.items
  globals : w.other.globals = w.env.globals
  keeps : VisitKeeps w.other w.base w.room w.reply
  visits : ∀ key t, t.Consistent w.other w.room → w.Trails t →
    t.progress.lookup key = some ⟨.pending, false⟩ → w.last.Typed key →
    w.Lands (fun _ t' => w.Trails t') (w.reply key t)

/-- A run of the leading check from `s` to `s'`, inside of the stretch, is followed from `t` on. -/
def Follows (w : Window σ) (s s' t : Checking σ) (y : Check σ α) (post : α → Checking σ → Prop) : Prop :=
  w.Chased → w.first.Still s → s'.Leads w.last → t.Consistent w.other w.room → w.Trails t →
    w.Lands (fun a t' => t.Advances w.other w.base w.room t' ∧ w.Trails t' ∧ post a t') (y t)

theorem Records.refl (s : Checking σ) : w.Records s s where
  members _ waiting := .inl waiting
  paths _ _ listed := .inl listed

theorem MemberRun.lead (run : w.MemberRun key s t) (onward : t.Leads u) : w.MemberRun key s u := by
  obtain ⟨decl, n, before, after, listed, ready, begun, still, fresh, ran, leads⟩ := run
  exact ⟨decl, n, before, after, listed, ready, begun, still, fresh, ran, leads.trans onward⟩

theorem MemberRun.enter (earlier : s.Still t) (run : w.MemberRun key t u) : w.MemberRun key s u := by
  obtain ⟨decl, n, before, after, listed, ready, begun, still, rest⟩ := run
  exact ⟨decl, n, before, after, listed, ready, begun, earlier.trans still, rest⟩

theorem PathRun.lead {key : ImportKey} (run : w.PathRun key path s t) (onward : t.Leads u) :
    w.PathRun key path s u := by
  obtain ⟨own, place, n, before, after, stands, laid, ready, still, ran, holder, leads⟩ := run
  exact ⟨own, place, n, before, after, stands, laid, ready, still, ran, holder, leads.trans onward⟩

theorem PathRun.enter {key : ImportKey} (earlier : s.Still t) (run : w.PathRun key path t u) :
    w.PathRun key path s u := by
  obtain ⟨own, place, n, before, after, stands, laid, ready, still, rest⟩ := run
  exact ⟨own, place, n, before, after, stands, laid, ready, earlier.trans still, rest⟩

/-- The records of two stretches. Members that are done stay so. -/
theorem Records.trans (first : w.Records s t) (earlier : s.Leads t) (second : w.Records t u)
    (onward : t.Leads u) (kept : ∀ key, t.progress.lookup key = some ⟨.done, true⟩ →
      u.progress.lookup key = some ⟨.done, true⟩) : w.Records s u where
  members key waiting := by
    rcases first.members key waiting with still | ⟨done, run⟩
    · exact (second.members key still).imp_right fun done => ⟨done.1, done.2.enter earlier.still⟩
    · exact .inr ⟨kept key done, run.lead onward⟩
  paths key path listed := by
    rcases second.paths key path listed with between | ⟨absent, run⟩
    · exact (first.paths key path between).imp_right fun absent => ⟨absent.1, absent.2.lead onward⟩
    · exact .inr ⟨earlier.missing absent, run.enter earlier.still⟩

/-- Where neither progress nor paths change, there is nothing to record. -/
theorem Records.of_fields (progress : t.progress = s.progress) (paths : t.paths = s.paths) :
    w.Records s t where
  members _ waiting := .inl (progress ▸ waiting)
  paths _ _ listed := .inl (paths ▸ listed)

theorem Moves.refl (ready : s.Consistent w.env n) : w.Moves n s s :=
  ⟨.refl ready, .refl s, .refl s⟩

theorem Moves.trans (first : w.Moves n s t) (second : w.Moves n t u) : w.Moves n s u :=
  ⟨first.advances.trans second.advances, first.leads.trans second.leads,
    first.records.trans first.leads second.records second.leads fun key done =>
      second.advances.grows.begun key _ (by simp) done (by simp)⟩

theorem Moves.consistent (moves : w.Moves n s t) : t.Consistent w.env n := moves.advances.consistent

/-- A step that takes a number for a local, or asks the host. -/
theorem Moves.of_fields (ready : s.Consistent w.env n) (symbols : t.symbols = s.symbols)
    (progress : t.progress = s.progress) (paths : t.paths = s.paths) (bodies : t.bodies = s.bodies)
    (locals : s.nextLocal ≤ t.nextLocal) : w.Moves n s t :=
  ⟨.of_fields ready symbols progress bodies locals,
    .of_fields symbols progress (paths ▸ List.Subset.refl _) (bodies ▸ List.Subset.refl _),
    .of_fields progress paths⟩

theorem Trails.of_fields (trails : w.Trails t) (symbols : u.symbols = t.symbols)
    (progress : u.progress = t.progress) (paths : u.paths = t.paths) : w.Trails u where
  alike := symbols ▸ trails.alike
  params id := symbols ▸ trails.params id
  listed key := progress ▸ trails.listed key
  agree key known := by
    have before : t.Typed key := fun own listed => known own (progress ▸ listed)
    exact ⟨(trails.agree key before).1, fun own twin found present =>
      (trails.agree key before).2 own twin found (symbols ▸ present)⟩
  paths key path listed := trails.paths key path (paths ▸ listed)
  pending key waiting := trails.pending key (progress ▸ waiting)
  missing key absent := trails.missing key (paths ▸ absent)

/-- Another import is resolved, to what the leading check made of it. -/
theorem Trails.cache (trails : w.Trails t) {key : ImportKey} (listed : (key, own) ∈ w.last.paths)
    (same : ∀ own, (key, own) ∈ w.last.paths → path.type = own.type) :
    w.Trails { t with paths := (key, path) :: t.paths } :=
  { trails with
    paths := by
      intro other found present
      rcases List.mem_cons.mp present with fresh | earlier
      · cases fresh
        exact ⟨⟨own, listed⟩, same⟩
      · exact trails.paths other found earlier
    missing := by
      intro other absent
      apply trails.missing
      rw [List.lookup_eq_none_iff] at absent ⊢
      exact fun entry earlier => absent entry (List.mem_cons_of_mem _ earlier) }

theorem Lands.imp {post post' : α → Checking σ → Prop} {r : EStateM.Result TypeError (Checking σ) α}
    (lands : w.Lands post r) (weaker : ∀ a t, post a t → post' a t) : w.Lands post' r := by
  cases r with
  | ok a t => exact weaker a t lands
  | error error t => exact lands

theorem Lands.bind {y : Check σ α} {f : α → Check σ β} {post : α → Checking σ → Prop}
    {post' : β → Checking σ → Prop} (lands : w.Lands post (y t))
    (further : ∀ a u, y t = .ok a u → post a u → w.Lands post' (f a u)) : w.Lands post' ((y >>= f) t) := by
  show w.Lands post' (EStateM.bind y f t)
  unfold EStateM.bind
  cases ran : y t with
  | ok a u =>
    rw [ran] at lands
    exact further a u ran lands
  | error error u =>
    rw [ran] at lands
    exact lands

section

variable {y : Check σ α} {f : α → Check σ β} {post : α → Checking σ → Prop}
  {post' : β → Checking σ → Prop}

/-- What is known of the following check at the point it has come to. -/
theorem Follows.given (follows : w.Chased → w.first.Still s → s'.Leads w.last →
    t.Consistent w.other w.room → w.Trails t → w.Follows s s' t y post) : w.Follows s s' t y post :=
  fun chased still leads ready trails =>
    follows chased still leads ready trails chased still leads ready trails

theorem Follows.imp {post post' : α → Checking σ → Prop} (follows : w.Follows s s' t y post)
    (weaker : ∀ a u, post a u → post' a u) : w.Follows s s' t y post' :=
  fun chased still leads ready trails => (follows chased still leads ready trails).imp
    fun a u done => ⟨done.1, done.2.1, weaker a u done.2.2⟩

theorem Follows.pure {a : α} (holds : post a t) : w.Follows s s' t (pure a) post :=
  fun _ _ _ ready trails => ⟨.refl ready, trails, holds⟩

/-- The steps of the leading check one after the other, and those of the following one. -/
theorem Follows.bind (first : w.Follows s u t y post) (earlier : s.Leads u) (onward : u.Leads s')
    (second : ∀ a v, t.Advances w.other w.base w.room v → post a v → w.Follows u s' v (f a) post') :
    w.Follows s s' t (y >>= f) post' := by
  intro chased still leads ready trails
  refine Lands.bind (first chased still (onward.trans leads) ready trails) ?_
  rintro a v - ⟨steps, trails, holds⟩
  refine Lands.imp (second a v steps holds chased (still.trans earlier.still) leads steps.consistent
    trails) ?_
  exact fun b last done => ⟨steps.trans done.1, done.2⟩

theorem Follows.symbols {f : Symbols → Check σ β} (further : w.Follows s s' t (f t.symbols) post') :
    w.Follows s s' t (Check.symbols >>= f) post' :=
  further

/-- A number for a local is taken. -/
theorem Follows.fresh {f : LocalId → Check σ β} (further : ∀ u, t.Advances w.other w.base w.room u →
    w.Follows s s' u (f t.nextLocal) post') : w.Follows s s' t (Check.freshLocal >>= f) post' := by
  intro chased still leads ready trails
  have step : t.Advances w.other w.base w.room { t with nextLocal := t.nextLocal + 1 } :=
    .of_fields ready rfl rfl rfl (Nat.le_succ _)
  refine Lands.imp (further _ step chased still leads step.consistent (trails.of_fields rfl rfl rfl)) ?_
  exact fun b last done => ⟨step.trans done.1, done.2⟩

theorem Follows.text {type : Ty} {f : String → Check σ β}
    (further : w.Follows s s' t (f (t.symbols.typeText type)) post') :
    w.Follows s s' t (Check.text type >>= f) post' :=
  further

theorem Follows.get {f : Checking σ → Check σ β} (further : w.Follows s s' t (f t) post') :
    w.Follows s s' t ((get : Check σ (Checking σ)) >>= f) post' :=
  further

theorem Follows.progress {f : Option Progress → Check σ β}
    (further : w.Follows s s' t (f (t.progress.lookup key)) post') :
    w.Follows s s' t (Check.progress? key >>= f) post' :=
  further

/-- An untimely refusal, with what would come behind it. -/
theorem Follows.refused {span : Span} {cause : TypeCause} {f : α → Check σ β}
    (untimely : cause.Untimely w.env w.other w.last.bodies) :
    w.Follows s s' t (Check.fail span cause >>= f) post' :=
  fun _ _ _ _ _ => untimely

end

/-- The two checks agree on a member whose type both know. -/
theorem Trails.agrees (trails : w.Trails t) (ready : s.Consistent w.env n) (leads : s.Leads w.last)
    (known : s.Typed key) (knownToo : t.Typed key) (found : s.symbols.member? key = some own)
    (present : t.symbols.member? key = some twin) : twin.type = own.type ∧ twin.params = own.params := by
  obtain ⟨late, listed, shaped⟩ := Symbols.member?_of_shape leads.shape found
  have agree := (trails.agree key knownToo).2 late twin listed present
  by_cases param : own.isParam = true
  · have absent : s.progress.lookup key = none := unlisted_of_param ready found param
    have same := leads.still.member? key absent
    rw [listed, found, Option.some.injEq] at same
    rw [← same]
    exact agree
  · have settled : s.Settled key := by
      refine ⟨known, fun member again => ?_⟩
      rw [found, Option.some.injEq] at again
      rw [← again]
      simpa using param
    have late' := (leads.below _ (.refl w.last)).types key settled own late found listed
    exact ⟨agree.1.trans late'.1, agree.2.trans late'.2⟩

/-- The two checks see the same shapes. -/
theorem Trails.sees (trails : w.Trails t) (leads : s.Leads w.last) : s.symbols.Alike t.symbols :=
  trails.alike.of_shape leads.shape.symm rfl

end Window

end ScriptShell
