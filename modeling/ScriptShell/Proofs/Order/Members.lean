import ScriptShell.Proofs.Order.Expressions

/-! The check of a member is followed. While a member is checked, the two checks write the same types and
the same parameters into it, one step after the other; in the end they agree on it as on all the members
that both know. -/
namespace ScriptShell

open Checking

namespace Checking

variable {σ : Type} {env : CheckEnv σ} {base bound : Nat} {s t u v : Checking σ} {key other : MemberKey}

/-- Changes a member. -/
def edit (key : MemberKey) (f : MemberSymbol → MemberSymbol) (s : Checking σ) : Checking σ :=
  { s with symbols := s.symbols.modifyMember key f }

theorem params_modifyMember (S : Symbols) (key : MemberKey) (f : MemberSymbol → MemberSymbol)
    (id : ContainerId) : ((S.modifyMember key f).get id).params = (S.get id).params := by
  rw [Symbols.get_modifyMember]
  split <;> rfl

theorem member?_modifyMember_other {S : Symbols} {f : MemberSymbol → MemberSymbol}
    (keeps : ∀ member, (f member).shape = member.shape) (differs : other ≠ key) :
    (S.modifyMember key f).member? other = S.member? other := by
  rw [Symbols.member?_modifyMember fun member => MemberSymbol.name_eq_of_shape (keeps member),
    if_neg differs.symm]

theorem found_edit {f : MemberSymbol → MemberSymbol} (keeps : ∀ member, (f member).shape = member.shape)
    (found : s.symbols.member? key = some own) : (s.edit key f).symbols.member? key = some (f own) :=
  Symbols.found_modifyMember found fun member => MemberSymbol.name_eq_of_shape (keeps member)

theorem member?_edit_other {f : MemberSymbol → MemberSymbol}
    (keeps : ∀ member, (f member).shape = member.shape) (differs : other ≠ key) :
    (s.edit key f).symbols.member? other = s.symbols.member? other :=
  member?_modifyMember_other keeps differs

theorem Begun.listed (begun : Begun key flag s) : s.progress.lookup key ≠ none := by
  rw [begun]
  simp

/-- A change of a member that has a body of its own. -/
theorem Still.edit {f : MemberSymbol → MemberSymbol} (keeps : ∀ member, (f member).shape = member.shape)
    (listed : s.progress.lookup key ≠ none) :
    s.Still (s.edit key f) where
  keys := rfl
  params := params_modifyMember s.symbols key f
  member? other absent := by
    refine member?_modifyMember_other keeps ?_
    rintro rfl
    exact listed absent

theorem Still.mark (s : Checking σ) (key : MemberKey) (own : Progress) : s.Still (s.mark key own) :=
  ⟨keys_mark s key own, fun _ => rfl, fun _ _ => rfl⟩

theorem typed_mark {own : Progress} (known : s.Typed other)
    (later : key = other → own.typed = true ∧ own.state ≠ .pending) : (s.mark key own).Typed other := by
  intro progress listed
  rw [lookup_mark] at listed
  split at listed
  next same =>
    obtain ⟨_, -, rfl⟩ := Option.map_eq_some_iff.mp listed
    exact later same.symm
  next => exact known progress listed

theorem typed_mark_self {own : Progress} (later : own.typed = true ∧ own.state ≠ .pending) :
    (s.mark key own).Typed key := by
  intro progress listed
  rw [lookup_mark, if_pos rfl] at listed
  obtain ⟨_, -, rfl⟩ := Option.map_eq_some_iff.mp listed
  exact later

theorem typed_of_mark {own : Progress} (known : (s.mark key own).Typed other) (differs : other ≠ key) :
    s.Typed other := by
  intro progress listed
  apply known progress
  rw [lookup_mark, if_neg differs]
  exact listed

/-- The mark of a member leads on, unless it takes back that the type is known. -/
theorem Leads.mark {own : Progress} (later : s.Typed key → own.typed = true ∧ own.state ≠ .pending) :
    s.Leads (s.mark key own) := by
  have kept : ∀ other, s.Typed other → (s.mark key own).Typed other := by
    intro other known
    exact typed_mark known fun same => later (same ▸ known)
  constructor
  case below =>
    intro S below
    exact ⟨below.shape, fun other settled => below.types other ⟨kept other settled.1, settled.2⟩⟩
  case typed => exact kept
  case paths => exact List.Subset.refl _
  case bodies => exact List.Subset.refl _
  case still => exact .mark s key own

/-- A member whose type is not known may be changed. -/
theorem Leads.edit {f : MemberSymbol → MemberSymbol} (keeps : ∀ member, (f member).shape = member.shape)
    (listed : s.progress.lookup key ≠ none)
    (free : ¬ s.Typed key ∨ ∀ member, (f member).type = member.type ∧ (f member).params = member.params) :
    s.Leads (s.edit key f) where
  below S below := by
    refine ⟨below.shape.trans (Symbols.shape_modifyMember _ _ keeps), ?_⟩
    intro other settled before after found later
    by_cases same : other = key
    · subst same
      have kept := free.resolve_left fun unknown => unknown settled.1
      have present := found_edit keeps found
      have settledThere : (s.edit other f).Settled other := by
        refine ⟨settled.1, fun member again => ?_⟩
        rw [present, Option.some.injEq] at again
        rw [← again, MemberSymbol.isParam_eq_of_shape (keeps before)]
        exact settled.2 before found
      have types := below.types other settledThere (f before) after present later
      exact ⟨types.1.trans (kept before).1, types.2.trans (kept before).2⟩
    · have present := member?_edit_other (s := s) keeps same
      have settledThere : (s.edit key f).Settled other :=
        ⟨settled.1, fun member again => settled.2 member (present.symm.trans again)⟩
      exact below.types other settledThere before after (present.trans found) later
  typed _ known := known
  paths := List.Subset.refl _
  bodies := List.Subset.refl _
  still := .edit keeps listed

/-- A body is kept. -/
theorem Leads.keep (s : Checking σ) (body : CheckedBody) :
    s.Leads { s with bodies := (key, body) :: s.bodies } :=
  .of_fields rfl rfl (List.Subset.refl _) (List.subset_cons_self _ _)

/-- What is known of a member with a body of its own stays so. -/
theorem Leads.keeps (leads : s.Leads t) (known : s.Typed key) (found : s.symbols.member? key = some own)
    (plain : own.isParam = false) (later : t.symbols.member? key = some twin) :
    twin.type = own.type ∧ twin.params = own.params := by
  refine (leads.below _ (.refl t)).types key ⟨known, fun member present => ?_⟩ own twin found later
  rw [found, Option.some.injEq] at present
  exact present ▸ plain

theorem plain_of_listed (ready : s.Consistent env bound) (found : s.symbols.member? key = some own)
    (listed : s.progress.lookup key ≠ none) : own.isParam = false := by
  cases param : own.isParam with
  | false => rfl
  | true => exact absurd (Typing.unlisted_of_param ready found param) listed

end Checking

/-- Both checks are at work on the same member, and what they have made of it so far is the same. -/
structure Checking.Paired {σ : Type} (key : MemberKey) (flag : Bool) (s t : Checking σ) : Prop where
  begun : Begun key flag s
  begunToo : Begun key flag t
  same : ∃ own twin, s.symbols.member? key = some own ∧ t.symbols.member? key = some twin ∧
    twin.params = own.params ∧ (flag = true → twin.type = own.type) ∧ own.constant = 0 ∧ twin.constant = 0

/-- The two checks have made the same of a member. -/
def Checking.Matched {σ : Type} (key : MemberKey) (s t : Checking σ) : Prop :=
  ∃ own twin, s.symbols.member? key = some own ∧ t.symbols.member? key = some twin ∧
    twin.type = own.type ∧ twin.params = own.params

theorem Checking.Paired.advances {σ : Type} {env other : CheckEnv σ} {base bound room : Nat}
    {s s' t t' : Checking σ} (paired : Paired key flag s t) (steps : s.Advances env base bound s')
    (stepsToo : t.Advances other base room t') : Paired key flag s' t' := by
  obtain ⟨own, twin, found, foundToo, rest⟩ := paired.same
  refine ⟨paired.begun.advances steps, paired.begunToo.advances stepsToo, own, twin, ?_, ?_, rest⟩
  · exact (paired.begun.member? steps).trans found
  · exact (paired.begunToo.member? stepsToo).trans foundToo

namespace Window

variable {σ α β : Type} {w : Window σ} {n : Nat} {s t u v s' : Checking σ} {key : MemberKey}

/-- Work of the leading check on a member. -/
structure Labours (w : Window σ) (n : Nat) (key : MemberKey) (s t : Checking σ) : Prop where
  works : s.Works w.env w.base n key t
  leads : s.Leads t
  records : w.Records s t

theorem Moves.labours (moves : w.Moves n s t) : w.Labours n key s t :=
  ⟨moves.advances.works, moves.leads, moves.records⟩

theorem Labours.trans (first : w.Labours n key s t) (begun : Begun key flag t)
    (second : w.Labours n key t u) : w.Labours n key s u := by
  refine ⟨first.works.trans second.works, first.leads.trans second.leads,
    first.records.trans first.leads second.records second.leads fun other done => ?_⟩
  refine second.works.grows.begun other _ ?_ done (by simp)
  rintro ⟨⟩
  rw [begun] at done
  cases done

/-- A member that is begun is marked again. -/
theorem Records.mark (begun : Begun key flag s) : w.Records s (s.mark key own) where
  members other waiting := by
    left
    rw [lookup_mark, if_neg, waiting]
    rintro rfl
    rw [begun] at waiting
    cases waiting
  paths _ _ listed := .inl listed

/-- What the following check comes to from a state, held against a run of the leading one. -/
def Tracks (w : Window σ) (s s' t : Checking σ) (y : Check σ α) (post : α → Checking σ → Prop) : Prop :=
  w.Chased → w.first.Still s → s'.Leads w.last → t.Consistent w.other w.room → w.Trails t →
    w.Lands post (y t)

/-- The following check works on a member as well. -/
abbrev Attends (w : Window σ) (s s' t : Checking σ) (y : Check σ α) (post : α → Checking σ → Prop) : Prop :=
  w.Tracks s s' t y fun a t' => t'.Consistent w.other w.room ∧ w.Trails t' ∧ post a t'

/-- The following check has come to the end of a body. -/
abbrev Closes (w : Window σ) (key : MemberKey) (s s' t : Checking σ) (y : Check σ α) : Prop :=
  w.Tracks s s' t y fun _ t' => w.Trails t' ∧ Matched key s' t'

section

variable {y : Check σ α} {f : α → Check σ β} {post : α → Checking σ → Prop}
  {post' : β → Checking σ → Prop}

theorem Follows.attends (follows : w.Follows s s' t y post) : w.Attends s s' t y fun a t' =>
    t.Advances w.other w.base w.room t' ∧ post a t' :=
  fun chased still leads ready trails => (follows chased still leads ready trails).imp
    fun _ _ done => ⟨done.1.consistent, done.2.1, done.1, done.2.2⟩

theorem Attends.imp {post post' : α → Checking σ → Prop} (attends : w.Attends s s' t y post)
    (weaker : ∀ a u, post a u → post' a u) : w.Attends s s' t y post' :=
  fun chased still leads ready trails => (attends chased still leads ready trails).imp
    fun a u done => ⟨done.1, done.2.1, weaker a u done.2.2⟩

theorem Attends.ran (attends : w.Attends s s' t y post) :
    w.Attends s s' t y fun a t' => y t = .ok a t' ∧ post a t' := by
  intro chased still leads ready trails
  have lands := attends chased still leads ready trails
  cases ran : y t with
  | ok a t' =>
    rw [ran] at lands
    exact ⟨lands.1, lands.2.1, rfl, lands.2.2⟩
  | error error t' =>
    rw [ran] at lands
    exact lands

theorem Tracks.given (tracks : w.Chased → w.first.Still s → s'.Leads w.last →
    t.Consistent w.other w.room → w.Trails t → w.Tracks s s' t y post) : w.Tracks s s' t y post :=
  fun chased still leads ready trails =>
    tracks chased still leads ready trails chased still leads ready trails

theorem Attends.pure {a : α} (holds : post a t) : w.Attends s s' t (pure a) post :=
  fun _ _ _ ready trails => ⟨ready, trails, holds⟩

theorem Tracks.bind (first : w.Attends s u t y post) (earlier : s.Leads u) (onward : u.Leads s')
    (second : ∀ a v, post a v → w.Tracks u s' v (f a) post') : w.Tracks s s' t (y >>= f) post' := by
  intro chased still leads ready trails
  refine Lands.bind (first chased still (onward.trans leads) ready trails) ?_
  rintro a v - ⟨consistent, trails, holds⟩
  exact second a v holds chased (still.trans earlier.still) leads consistent trails

/-- A number for a local is taken. -/
theorem Tracks.fresh {f : LocalId → Check σ β} (further : ∀ u, t.Advances w.other w.base w.room u →
    w.Tracks s s' u (f t.nextLocal) post') : w.Tracks s s' t (Check.freshLocal >>= f) post' := by
  intro chased still leads ready trails
  have step : t.Advances w.other w.base w.room { t with nextLocal := t.nextLocal + 1 } :=
    .of_fields ready rfl rfl rfl (Nat.le_succ _)
  exact further _ step chased still leads step.consistent (trails.of_fields rfl rfl rfl)

end

theorem Trails.edit {f : MemberSymbol → MemberSymbol} (trails : w.Trails t)
    (keeps : ∀ member, (f member).shape = member.shape) (listed : t.progress.lookup key ≠ none)
    (free : ¬ t.Typed key ∨ ∀ member, (f member).type = member.type ∧ (f member).params = member.params) :
    w.Trails (t.edit key f) where
  alike := trails.alike.of_shape rfl (Symbols.shape_modifyMember _ _ keeps)
  params id := (params_modifyMember t.symbols key f id).trans (trails.params id)
  listed := trails.listed
  agree other known := by
    obtain ⟨knownThere, agree⟩ := trails.agree other known
    refine ⟨knownThere, fun own twin found present => ?_⟩
    by_cases same : other = key
    · subst same
      have kept := free.resolve_left fun unknown => unknown known
      obtain ⟨before, earlier, -⟩ := Symbols.member?_of_shape (Symbols.shape_modifyMember _ _ keeps).symm present
      rw [found_edit keeps earlier, Option.some.injEq] at present
      rw [← present, (kept before).1, (kept before).2]
      exact agree own before found earlier
    · exact agree own twin found ((member?_edit_other keeps same).symm.trans present)
  paths := trails.paths
  pending := trails.pending
  missing := trails.missing

/-- A member is marked. If its type is said to be known, the leading check knows it as well. -/
theorem Trails.mark {own : Progress} (trails : w.Trails t) (begun : own.state ≠ .pending)
    (known : own.typed = true → w.last.Typed key ∧ ∀ a b, w.last.symbols.member? key = some a →
      t.symbols.member? key = some b → b.type = a.type ∧ b.params = a.params) :
    w.Trails (t.mark key own) where
  alike := trails.alike
  params := trails.params
  listed other := by
    rw [← trails.listed other, lookup_mark]
    split
    next same => rw [same, Option.map_eq_none_iff]
    next => rfl
  agree other knownThere := by
    by_cases same : other = key
    · subst same
      cases listed : t.progress.lookup other with
      | none =>
        refine trails.agree other fun progress present => ?_
        rw [listed] at present
        cases present
      | some before =>
        refine known (knownThere own ?_).1
        rw [lookup_mark, if_pos rfl, listed]
        rfl
    · exact trails.agree other (typed_of_mark knownThere same)
  paths := trails.paths
  pending other waiting := by
    rw [lookup_mark] at waiting
    split at waiting
    next =>
      obtain ⟨_, -, rfl⟩ := Option.map_eq_some_iff.mp waiting
      exact absurd rfl begun
    next => exact trails.pending other waiting
  missing := trails.missing

/-- The leading check knows the type of a member, and the following one has found the same. -/
theorem Trails.settle (trails : w.Trails t) (leads : s'.Leads w.last)
    (works : s.Works w.env w.base n key s') (listed : s'.progress.lookup key ≠ none)
    (known : s'.Typed key) (same : Matched key s' t) {own : Progress} (begun : own.state ≠ .pending) :
    w.Trails (t.mark key own) := by
  obtain ⟨mine, twin, found, foundToo, type, params⟩ := same
  refine trails.mark begun fun _ => ⟨leads.typed key known, fun a b late present => ?_⟩
  rw [foundToo, Option.some.injEq] at present
  obtain ⟨typeLate, paramsLate⟩ :=
    leads.keeps known found (plain_of_listed works.consistent found listed) late
  rw [← present, type, params, typeLate, paramsLate]
  exact ⟨rfl, rfl⟩

end Window

namespace Typing

variable {σ : Type} {w : Window σ} {n : Nat} {s t u v s' : Checking σ} {key : MemberKey}

/-- The member that is worked on gets a type. -/
theorem paired_setType (paired : Paired key false s t) (type : Ty) :
    Paired key false (s.edit key ({ · with type })) (t.edit key ({ · with type })) ∧
      Matched key (s.edit key ({ · with type })) (t.edit key ({ · with type })) := by
  obtain ⟨own, twin, found, foundToo, params, -, unset, unsetToo⟩ := paired.same
  have later := Symbols.found_modifyMember (f := ({ · with type })) found fun _ => rfl
  have laterToo := Symbols.found_modifyMember (f := ({ · with type })) foundToo fun _ => rfl
  exact ⟨⟨paired.begun, paired.begunToo, _, _, later, laterToo, params, nofun, unset, unsetToo⟩,
    _, _, later, laterToo, rfl, params⟩

/-- The type of the member that is worked on is known from here on. -/
theorem paired_typed (paired : Paired key false s t) (matched : Matched key s t) :
    Paired key true (s.mark key ⟨.checking, true⟩) (t.mark key ⟨.checking, true⟩) := by
  obtain ⟨own, twin, found, foundToo, params, -, unset⟩ := paired.same
  obtain ⟨_, _, again, againToo, type, -⟩ := matched
  rw [found, Option.some.injEq] at again
  rw [foundToo, Option.some.injEq] at againToo
  refine ⟨begun_mark paired.begun, begun_mark paired.begunToo, own, twin, found, foundToo, params, ?_, unset⟩
  intro _
  rw [again, againToo]
  exact type

/-- What the check of the following side may write into a member whose type it does not know. -/
theorem attends_setType (new : w.base ≤ key.owner) (paired : Paired key false s t) {type : Ty}
    (valued : type.OfMember) :
    w.Attends u s' t (Check.modifyMember key ({ · with type })) fun _ t' =>
      t' = t.edit key ({ · with type }) := by
  intro chased still leads ready trails
  obtain ⟨-, twin, -, found, -, -, -, unset⟩ := paired.same
  have works : t.Works w.other w.base w.room key _ :=
    .setType ready new paired.begunToo found (fun _ => unset) valued
  exact ⟨works.consistent, trails.edit (fun _ => rfl) paired.begunToo.listed
    (.inl (not_typed_of_checking paired.begunToo)), rfl⟩

/-- The leading check writes a type into a member whose type it does not know. -/
theorem labours_setType (ready : s.Consistent w.env n) (new : w.base ≤ key.owner)
    (begun : Begun key false s) (found : s.symbols.member? key = some own) (unset : own.constant = 0)
    {type : Ty} (valued : type.OfMember) :
    w.Labours n key s (s.edit key ({ · with type })) :=
  ⟨.setType ready new begun found (fun _ => unset) valued,
    .edit (fun _ => rfl) begun.listed (.inl (not_typed_of_checking begun)), .of_fields rfl rfl⟩

/-- The type of a member is known while its body is being checked. -/
theorem labours_typed (ready : s.Consistent w.env n) (begun : Begun key false s) :
    w.Labours n key s (s.mark key ⟨.checking, true⟩) :=
  ⟨.typed ready begun, .mark (by simp), .mark begun⟩

/-- A written type is read by both checks, and is known from then on. -/
theorem ascribe_follows (moving : w.Moving n) (laid : scope.Laid w.home) (ready : s.Consistent w.env n)
    (new : w.base ≤ key.owner) (begun : Begun key false s)
    (found : s.symbols.member? key = some own) (unset : own.constant = 0)
    (run : (do
      let type ← resolveType w.env (checkMember w.env n) scope ref
      Check.modifyMember key ({ · with type })
      markTyped key
      return type) s = .ok type s') :
    w.Labours n key s s' ∧ Begun key true s' ∧
      s'.symbols.member? key = some { own with type } ∧
      ∀ t, Paired key false s t → w.Attends s s' t (do
        let type ← resolveType w.other w.reply scope ref
        Check.modifyMember key ({ · with type })
        markTyped key
        return type) fun got t' => got = type ∧ Paired key true s' t' := by
  obtain ⟨works, begunNow, foundNow⟩ :=
    ascribe_spec moving.keeps ready new begun found (fun _ => unset) run
  simp only [markTyped, Check.bind_ok, Check.modifyMember_ok, Check.setProgress_ok,
    Check.pure_ok] at run
  obtain ⟨type, between, resolved, _, _, rfl, _, _, rfl, rfl, rfl⟩ := run
  obtain ⟨moves, follows⟩ := resolveType_follows moving laid ready resolved
  have still := begun.advances moves.advances
  have stored := (begun.member? moves.advances).trans found
  have valued := resolveType_ofMember moving.keeps ready resolved
  have wrote : w.Labours n key between (between.edit key ({ · with type })) :=
    labours_setType moves.consistent new still stored unset valued
  have marked : w.Labours n key (between.edit key ({ · with type })) _ :=
    labours_typed wrote.works.consistent still
  have all := (moves.labours.trans still wrote).trans still marked
  refine ⟨all, begunNow, foundNow, fun t paired => ?_⟩
  refine .bind (follows t scope (.refl scope) laid).attends moves.leads
    (wrote.leads.trans marked.leads) ?_
  rintro got v ⟨steps, same⟩
  rw [same]
  have pair := paired.advances moves.advances steps
  obtain ⟨pairNow, matched⟩ := paired_setType pair type
  refine .bind (attends_setType new pair valued) wrote.leads marked.leads ?_
  rintro _ _ rfl chased - leads readyToo trails
  have worked : Checking.Works w.other w.base _ _ _ _ := .typed readyToo pairNow.begunToo
  exact ⟨worked.consistent,
    trails.settle leads all.works begunNow.listed (typed_mark_self (by simp)) matched (by simp), rfl,
    paired_typed pairNow matched⟩

/-- The member that is worked on gets another parameter. -/
theorem labours_addParam (ready : s.Consistent w.env n) (new : w.base ≤ key.owner)
    (begun : Begun key false s) (param : Param) :
    w.Labours n key s (s.edit key fun member => { member with params := member.params ++ [param] }) :=
  ⟨.edit ready new begun (fun _ => rfl) (fun _ valued => valued) (.inl rfl) fun _ _ _ words => words,
    .edit (fun _ => rfl) begun.listed (.inl (not_typed_of_checking begun)), .of_fields rfl rfl⟩

theorem attends_addParam (new : w.base ≤ key.owner) (paired : Paired key false s t) (param : Param) :
    w.Attends u s' t
      (Check.modifyMember key fun member => { member with params := member.params ++ [param] })
      fun _ t' => Paired key false
        (s.edit key fun member => { member with params := member.params ++ [param] }) t' := by
  intro chased still leads ready trails
  have works : t.Works w.other w.base w.room key
      (t.edit key fun member => { member with params := member.params ++ [param] }) :=
    .edit ready new paired.begunToo (fun _ => rfl) (fun _ valued => valued) (.inl rfl) fun _ _ _ words => words
  refine ⟨works.consistent, trails.edit (fun _ => rfl) paired.begunToo.listed
    (.inl (not_typed_of_checking paired.begunToo)), paired.begun, paired.begunToo, ?_⟩
  obtain ⟨own, twin, found, foundToo, params, -, unset⟩ := paired.same
  refine ⟨_, _, found_edit (fun _ => rfl) found, found_edit (fun _ => rfl) foundToo, ?_, nofun, unset⟩
  rw [params]

theorem checkParams_follows (moving : w.Moving n) (laid : scope.Laid w.home) (ready : s.Consistent w.env n)
    (new : w.base ≤ key.owner) (begun : Begun key false s)
    (found : s.symbols.member? key = some own) (unset : own.constant = 0)
    (run : checkParams w.env (checkMember w.env n) scope key function locals params s = .ok all s') :
    w.Labours n key s s' ∧ Begun key false s' ∧
      (∃ later, s'.symbols.member? key = some later ∧ later.constant = 0) ∧
      ∀ t others, Paired key false s t → Locals.Alike locals others →
        w.Attends s s' t (checkParams w.other w.reply scope key function others params)
          fun got t' => Locals.Alike all got ∧ Paired key false s' t' := by
  induction params generalizing s locals own with
  | nil =>
    obtain ⟨rfl, rfl⟩ := Check.pure_ok.mp run
    exact ⟨(Window.Moves.refl ready).labours, begun, ⟨own, found, unset⟩,
      fun t others paired same => .pure ⟨same, paired⟩⟩
  | cons param rest ih =>
    simp only [checkParams, Check.guard_ok, Check.bind_ok, Check.freshLocal_ok,
      Check.modifyMember_ok] at run
    obtain ⟨distinct, type, between, resolved, _, _, ⟨rfl, rfl⟩, _, _, rfl, run⟩ := run
    obtain ⟨moves, follows⟩ := resolveType_follows moving laid ready resolved
    have number : w.Moves n between { between with nextLocal := between.nextLocal + 1 } :=
      .of_fields moves.consistent rfl rfl rfl rfl (Nat.le_succ _)
    have still := begun.advances (moves.trans number).advances
    have added := labours_addParam (w := w) number.consistent new still ⟨param.name, type⟩
    have stored := (begun.member? (moves.trans number).advances).trans found
    obtain ⟨more, begunLast, later, behind⟩ :=
      ih added.works.consistent still (found_edit (fun _ => rfl) stored) unset run
    have first := (moves.trans number).labours.trans still added
    refine ⟨first.trans still more, begunLast, later, fun t others paired same => ?_⟩
    have lookup := congrArg Option.isSome (same.lookup param.name)
    simp only [Option.isSome_map] at lookup
    unfold checkParams
    rw [lookup, if_neg distinct]
    refine .bind (follows t scope (.refl scope) laid).attends moves.leads
      ((number.leads.trans added.leads).trans more.leads) ?_
    rintro got v ⟨steps, sameType⟩
    rw [sameType]
    refine .fresh fun u step => ?_
    have pair := paired.advances (moves.trans number).advances (steps.trans step)
    refine .bind (attends_addParam new pair ⟨param.name, type⟩) (number.leads.trans added.leads)
      more.leads ?_
    intro _ r pair
    exact behind r _ pair (List.rel_append same (.cons ⟨rfl, rfl⟩ .nil))

/-- The host may answer otherwise when it is asked at another moment. -/
theorem inlineValue_follows (ready : s.Consistent w.env n)
    (listed : w.env.decls.lookup key = some ⟨.val decl, scope⟩) (inline : decl.mode = .inline)
    (run : inlineValue w.env decl init s = .ok value s') :
    w.Moves n s s' ∧ ∀ t got, (key, .val init) ∈ w.last.bodies → w.other.Types scope decl.init got →
      w.Follows s s' t (inlineValue w.other decl got) fun _ _ => True := by
  unfold inlineValue at run
  cases asked : w.env.services.evaluate with
  | none => simp [asked, Check.fail_ok] at run
  | some ask =>
    simp only [asked, Check.bind_ok, Check.get_ok, Check.set_ok] at run
    obtain ⟨_, _, ⟨rfl, rfl⟩, _, _, rfl, run⟩ := run
    cases answered : (ask s.symbols init s.host).1 with
    | error reason => simp [answered, Check.fail_ok] at run
    | ok found =>
      simp only [answered, Check.pure_ok] at run
      obtain ⟨rfl, rfl⟩ := run
      refine ⟨.of_fields ready rfl rfl rfl rfl (Nat.le_refl _),
        fun t got kept types chased _ leads readyToo trails => ?_⟩
      have askedToo : w.other.services.evaluate = some ask := chased.services ▸ asked
      have step : t.Advances w.other w.base w.room { t with host := (ask t.symbols got t.host).2 } :=
        .of_fields readyToo rfl rfl rfl (Nat.le_refl _)
      cases answer : (ask t.symbols got t.host).1 with
      | ok other =>
        have value : inlineValue w.other decl got t =
            .ok other { t with host := (ask t.symbols got t.host).2 } := by
          simp [inlineValue, askedToo, Check.bind_ok, Check.get_ok, Check.set_ok, Check.pure_ok, answer]
        rw [value]
        exact ⟨step, trails.of_fields rfl rfl rfl, trivial⟩
      | error reason =>
        have refused : inlineValue w.other decl got t =
            Check.fail decl.span (.inlineValue decl.name reason)
              { t with host := (ask t.symbols got t.host).2 } := by
          have got (u : Checking σ) : (get : Check σ _) u = .ok u u := rfl
          have stored (u v : Checking σ) : (set v : Check σ PUnit) u = .ok () v := rfl
          simp only [inlineValue, askedToo, bind, EStateM.bind, got, stored, answer]
        have sees := trails.sees leads
        rw [refused]
        exact ⟨ask, key, decl, scope, init, got, askedToo, listed, rfl, inline, kept, types, s.symbols, t.symbols,
          s.host, t.host, found, sees, answered, answer⟩

/-- The body is kept, and what the two checks have made of the member is the same. -/
theorem closes_keep (matched : Matched key u t) :
    w.Closes key s { u with bodies := (key, body) :: u.bodies } t (keepBody key twin) :=
  fun _ _ _ _ trails => ⟨trails.of_fields rfl rfl rfl, matched⟩

/-- The leading check has come to the end of the body of a member. -/
def Finished (w : Window σ) (n : Nat) (key : MemberKey) (s s' : Checking σ) : Prop :=
  ∃ u body flag, w.Labours n key s u ∧ Begun key flag u ∧
    s' = { u with bodies := (key, body) :: u.bodies }

theorem Finished.after (finished : Finished w n key t s') (first : w.Labours n key s t)
    (begun : Begun key flag t) : Finished w n key s s' := by
  obtain ⟨u, body, later, labours, rest⟩ := finished
  exact ⟨u, body, later, first.trans begun labours, rest⟩

theorem Finished.leads (finished : Finished w n key s s') : s.Leads s' := by
  obtain ⟨u, body, -, labours, -, rfl⟩ := finished
  exact labours.leads.trans (.keep u body)

/-- The constant of an inline value is no part of what other members see. -/
theorem labours_setConstant (ready : s.Consistent w.env n) (new : w.base ≤ key.owner)
    (begun : Begun key flag s) (found : s.symbols.member? key = some own) (word : own.type = .int)
    (constant : Int64) : w.Labours n key s (s.edit key ({ · with constant })) := by
  refine ⟨.edit ready new begun (fun _ => rfl) (fun _ valued => valued) (.inr fun _ => ⟨rfl, rfl⟩)
      fun member present _ _ => ?_,
    .edit (fun _ => rfl) begun.listed (.inr fun _ => ⟨rfl, rfl⟩), .of_fields rfl rfl⟩
  rw [found, Option.some.injEq] at present
  exact .inr (present ▸ word)

theorem matched_setConstant (matched : Matched key s t) (one two : Int64) :
    Matched key (s.edit key ({ · with constant := one })) (t.edit key ({ · with constant := two })) := by
  obtain ⟨own, twin, found, foundToo, same⟩ := matched
  exact ⟨_, _, found_edit (fun _ => rfl) found, found_edit (fun _ => rfl) foundToo, same⟩

theorem matched_advances {t' : Checking σ} (matched : Matched key s t) (begun : Begun key flag s)
    (begunToo : Begun key flagToo t) (steps : s.Advances env base bound s')
    (stepsToo : t.Advances other base room t') : Matched key s' t' := by
  obtain ⟨own, twin, found, foundToo, same⟩ := matched
  exact ⟨own, twin, (begun.member? steps).trans found, (begunToo.member? stepsToo).trans foundToo, same⟩

/-- The end of the check of a value, whose type is in place. -/
theorem checkVal_end_follows {init : TypedExpr} (ready : s.Consistent w.env n) (new : w.base ≤ key.owner)
    (listed : w.env.decls.lookup key = some ⟨.val decl, scope⟩) (begun : Begun key flag s)
    (found : s.symbols.member? key = some own) (type : own.type = init.type)
    (run : (do
      if decl.mode = .inline then
        if init.type ≠ .int then Check.fail decl.span (.inlineType decl.name)
        let constant ← inlineValue w.env decl init
        Check.modifyMember key ({ · with constant })
      keepBody key (.val init) : Check σ Unit) s = .ok () s') :
    Finished w n key s s' ∧ ∀ t got, init.Alike got → w.other.Types scope decl.init got →
      Begun key flagToo t → Matched key s t → w.Closes key s s' t (do
        if decl.mode = .inline then
          if got.type ≠ .int then Check.fail decl.span (.inlineType decl.name)
          let constant ← inlineValue w.other decl got
          Check.modifyMember key ({ · with constant })
        keepBody key (.val got)) := by
  by_cases inline : decl.mode = .inline
  · simp only [inline, if_true, Check.guard_ok, Check.bind_ok, Check.modifyMember_ok] at run
    obtain ⟨word, constant, between, asked, _, _, rfl, run⟩ := run
    obtain rfl := keepBody_ok.mp run
    obtain ⟨moves, follows⟩ := inlineValue_follows ready listed inline asked
    have still := begun.advances moves.advances
    have isWord : init.type = .int := Decidable.not_not.mp word
    have wrote := labours_setConstant (w := w) moves.consistent new still
      ((begun.member? moves.advances).trans found) (type.trans isWord) constant
    refine ⟨⟨_, _, flag, moves.labours.trans still wrote, still, rfl⟩, ?_⟩
    intro t got same types begunToo matched
    simp only [inline, if_true, same.type, isWord, ne_eq, not_true_eq_false, if_false]
    refine .given fun _ _ leads _ _ => ?_
    have kept : (key, .val init) ∈ w.last.bodies := leads.bodies List.mem_cons_self
    refine .bind (follows t got kept types).attends moves.leads (wrote.leads.trans (.keep _ _)) ?_
    rintro other v ⟨steps, -⟩ _ _ _ readyToo trails
    have pair := matched_advances matched begun begunToo moves.advances steps
    have kept : w.Trails (v.edit key ({ · with constant := other })) :=
      trails.edit (fun _ => rfl) (begunToo.advances steps).listed (.inr fun _ => ⟨rfl, rfl⟩)
    exact ⟨kept.of_fields rfl rfl rfl, matched_setConstant pair constant other⟩
  · simp only [inline, if_false] at run
    obtain rfl := keepBody_ok.mp run
    refine ⟨⟨s, _, flag, (Window.Moves.refl ready).labours, begun, rfl⟩, ?_⟩
    intro t got _ _ _ matched
    simp only [inline, if_false]
    exact closes_keep matched

theorem checkVal_follows (moving : w.Moving n) (laid : scope.Laid w.home) (ready : s.Consistent w.env n)
    (new : w.base ≤ key.owner) (listed : w.env.decls.lookup key = some ⟨.val decl, scope⟩)
    (begun : Begun key false s) (found : s.symbols.member? key = some own)
    (unset : own.constant = 0) (run : checkVal w.env (checkMember w.env n) scope key decl s = .ok () s') :
    Finished w n key s s' ∧ ∀ t, Paired key false s t →
      w.Closes key s s' t (checkVal w.other w.reply scope key decl) := by
  unfold checkVal at run
  cases ascription : decl.ascription with
  | none =>
    simp only [ascription, Option.mapM_none, pure_bind] at run
    rw [Check.bind_ok] at run
    obtain ⟨init, between, checked, run⟩ := run
    rw [Check.bind_ok] at run
    obtain ⟨_, _, typed, run⟩ := run
    obtain rfl := Check.modifyMember_ok.mp typed
    obtain ⟨moves, follows⟩ := checkValue_follows moving laid ready checked
    have still := begun.advances moves.advances
    have stored := (begun.member? moves.advances).trans found
    have wrote : w.Labours n key between (between.edit key ({ · with type := init.type })) :=
      labours_setType moves.consistent new still stored unset (checkValue_ofMember checked)
    obtain ⟨finished, closes⟩ := checkVal_end_follows wrote.works.consistent new listed still
      (found_edit (fun _ => rfl) stored) rfl run
    refine ⟨(finished.after wrote still).after moves.labours still, fun t paired => ?_⟩
    unfold checkVal
    simp only [ascription, Option.mapM_none, pure_bind]
    refine .bind (follows t scope (.refl scope) laid).attends.ran moves.leads
      (wrote.leads.trans finished.leads) ?_
    rintro got v ⟨ran, steps, same⟩
    obtain ⟨pair, matched⟩ := paired_setType (paired.advances moves.advances steps) init.type
    rw [same.type]
    refine .bind (attends_setType new (paired.advances moves.advances steps) (checkValue_ofMember checked))
      wrote.leads finished.leads ?_
    rintro _ _ rfl
    simpa only [same.type] using closes _ got same ⟨w.room, t, v, ran⟩ pair.begunToo matched
  | some ref =>
    simp only [ascription, Option.mapM_some] at run
    rw [Check.bind_ok] at run
    obtain ⟨_, between, written, run⟩ := run
    obtain ⟨type, ascribed, rfl⟩ := Check.map_ok.mp written
    obtain ⟨wrote, begunNow, foundNow, ascribes⟩ :=
      ascribe_follows moving laid ready new begun found unset ascribed
    rw [Check.bind_ok] at run
    obtain ⟨init, after, checked, run⟩ := run
    obtain ⟨agrees, run⟩ := Check.guardTexts_ok.mp run
    obtain ⟨moves, follows⟩ := checkValue_follows moving laid wrote.works.consistent checked
    have sameType : init.type = type := Decidable.not_not.mp agrees
    have still := begunNow.advances moves.advances
    obtain ⟨finished, closes⟩ := checkVal_end_follows moves.consistent new listed still
      ((begunNow.member? moves.advances).trans foundNow) sameType.symm run
    refine ⟨(finished.after moves.labours still).after wrote begunNow, fun t paired => ?_⟩
    unfold checkVal
    simp only [ascription, Option.mapM_some, map_eq_pure_bind]
    rw [bind_assoc]
    refine .bind (ascribes t paired) wrote.leads (moves.leads.trans finished.leads) ?_
    rintro _ v ⟨rfl, pair⟩
    simp only [pure_bind]
    refine .bind (follows v scope (.refl scope) laid).attends.ran moves.leads finished.leads ?_
    rintro got u ⟨ran, steps, same⟩
    have pairNow := pair.advances moves.advances steps
    obtain ⟨own, twin, foundThere, foundToo, params, types, -⟩ := pairNow.same
    rw [if_neg (by rw [same.type, sameType]; exact fun differs => differs rfl)]
    exact closes u got same ⟨w.room, v, u, ran⟩ pairNow.begunToo ⟨own, twin, foundThere, foundToo, types rfl, params⟩

theorem checkFunc_follows (moving : w.Moving n) (laid : scope.Laid w.home) (ready : s.Consistent w.env n)
    (new : w.base ≤ key.owner) (begun : Begun key false s) (found : s.symbols.member? key = some own)
    (unset : own.constant = 0)
    (run : checkFunc w.env (checkMember w.env n) scope key decl s = .ok () s') :
    Finished w n key s s' ∧ ∀ t, Paired key false s t →
      w.Closes key s s' t (checkFunc w.other w.reply scope key decl) := by
  unfold checkFunc at run
  rw [Check.bind_ok] at run
  obtain ⟨locals, between, params, run⟩ := run
  obtain ⟨first, begunThere, ⟨own, found, unset⟩, one⟩ :=
    checkParams_follows moving laid ready new begun found unset params
  have inside : Scope.Laid w.home ({ locals } :: scope) := laid.locals locals
  cases result : decl.result with
  | none =>
    simp only [result, Option.mapM_none, pure_bind] at run
    rw [Check.bind_ok] at run
    obtain ⟨body, after, checked, run⟩ := run
    rw [Check.bind_ok] at run
    obtain ⟨_, _, typed, run⟩ := run
    obtain rfl := Check.modifyMember_ok.mp typed
    obtain rfl := keepBody_ok.mp run
    obtain ⟨moves, follows⟩ := checkValue_follows moving inside first.works.consistent checked
    have still := begunThere.advances moves.advances
    have stored := (begunThere.member? moves.advances).trans found
    have wrote : w.Labours n key after (after.edit key ({ · with type := body.type })) :=
      labours_setType moves.consistent new still stored unset (checkValue_ofMember checked)
    have all := (first.trans begunThere moves.labours).trans still wrote
    refine ⟨⟨_, _, false, all, still, rfl⟩, fun t paired => ?_⟩
    unfold checkFunc
    refine .bind (one t [] paired .nil) first.leads (moves.leads.trans (wrote.leads.trans (.keep _ _))) ?_
    rintro others v ⟨same, pair⟩
    simp only [result, Option.mapM_none, pure_bind]
    refine .bind (follows v _ ((Scope.Alike.refl scope).inside same) (laid.locals others)).attends
      moves.leads (wrote.leads.trans (.keep _ _)) ?_
    rintro got u ⟨steps, alike⟩
    have pairNow := pair.advances moves.advances steps
    obtain ⟨-, matched⟩ := paired_setType pairNow body.type
    rw [alike.type]
    refine .bind (attends_setType new pairNow (checkValue_ofMember checked)) wrote.leads (.keep _ _) ?_
    rintro _ _ rfl
    exact closes_keep matched
  | some ref =>
    simp only [result, Option.mapM_some] at run
    rw [Check.bind_ok] at run
    obtain ⟨_, after, written, run⟩ := run
    obtain ⟨type, ascribed, rfl⟩ := Check.map_ok.mp written
    obtain ⟨wrote, begunNow, -, ascribes⟩ :=
      ascribe_follows moving laid first.works.consistent new begunThere found unset ascribed
    rw [Check.bind_ok] at run
    obtain ⟨body, last, checked, run⟩ := run
    obtain ⟨agrees, run⟩ := Check.guardTexts_ok.mp run
    obtain rfl := keepBody_ok.mp run
    obtain ⟨moves, follows⟩ := checkValue_follows moving inside wrote.works.consistent checked
    have still := begunNow.advances moves.advances
    have all := (first.trans begunThere wrote).trans begunNow moves.labours
    refine ⟨⟨_, _, true, all, still, rfl⟩, fun t paired => ?_⟩
    unfold checkFunc
    refine .bind (one t [] paired .nil) first.leads (wrote.leads.trans (moves.leads.trans (.keep _ _))) ?_
    rintro others v ⟨same, pair⟩
    simp only [result, Option.mapM_some, map_eq_pure_bind]
    rw [bind_assoc]
    refine .bind (ascribes v pair) wrote.leads (moves.leads.trans (.keep _ _)) ?_
    rintro _ r ⟨rfl, pairTyped⟩
    simp only [pure_bind]
    refine .bind (follows r _ ((Scope.Alike.refl scope).inside same) (laid.locals others)).attends
      moves.leads (.keep _ _) ?_
    rintro got u ⟨steps, alike⟩
    have pairNow := pairTyped.advances moves.advances steps
    obtain ⟨mine, twin, foundThere, foundToo, params, types, -⟩ := pairNow.same
    rw [if_neg (by rw [alike.type]; exact agrees)]
    exact closes_keep ⟨mine, twin, foundThere, foundToo, types rfl, params⟩

theorem foreignParams_follow (moving : w.Moving n) (laid : scope.Laid w.home)
    (ready : s.Consistent w.env n) (new : w.base ≤ key.owner) (begun : Begun key false s)
    (found : s.symbols.member? key = some own) (unset : own.constant = 0) {params : List ParamDecl}
    (run : (forIn params PUnit.unit fun (param : ParamDecl) (_ : PUnit) => (do
      let type ← resolveType w.env (checkMember w.env n) scope param.type
      Check.modifyMember key fun member =>
        { member with params := member.params ++ [⟨param.name, type⟩] }
      return .yield PUnit.unit : Check σ (ForInStep PUnit))) s = .ok PUnit.unit s') :
    w.Labours n key s s' ∧ Begun key false s' ∧
      (∃ later, s'.symbols.member? key = some later ∧ later.constant = 0) ∧ ∀ t, Paired key false s t →
      w.Attends s s' t (forIn params PUnit.unit fun (param : ParamDecl) (_ : PUnit) => (do
        let type ← resolveType w.other w.reply scope param.type
        Check.modifyMember key fun member =>
          { member with params := member.params ++ [⟨param.name, type⟩] }
        return .yield PUnit.unit : Check σ (ForInStep PUnit))) fun _ t' => Paired key false s' t' := by
  induction params generalizing s own with
  | nil =>
    rw [List.forIn_nil] at run
    obtain ⟨-, rfl⟩ := Check.pure_ok.mp run
    exact ⟨(Window.Moves.refl ready).labours, begun, ⟨own, found, unset⟩, fun t paired => .pure paired⟩
  | cons param rest ih =>
    simp only [List.forIn_cons, Check.bind_ok, Check.modifyMember_ok, Check.pure_ok] at run
    obtain ⟨_, _, ⟨type, between, resolved, _, _, rfl, rfl, rfl⟩, run⟩ := run
    obtain ⟨moves, follows⟩ := resolveType_follows moving laid ready resolved
    have still := begun.advances moves.advances
    have stored := (begun.member? moves.advances).trans found
    have added := labours_addParam (w := w) moves.consistent new still ⟨param.name, type⟩
    obtain ⟨more, begunLast, later, behind⟩ :=
      ih added.works.consistent still (found_edit (fun _ => rfl) stored) unset run
    refine ⟨(moves.labours.trans still added).trans still more, begunLast, later, fun t paired => ?_⟩
    simp only [List.forIn_cons, bind_assoc, pure_bind]
    refine .bind (follows t scope (.refl scope) laid).attends moves.leads (added.leads.trans more.leads) ?_
    rintro got v ⟨steps, same⟩
    rw [same]
    refine .bind (attends_addParam new (paired.advances moves.advances steps) ⟨param.name, type⟩)
      added.leads more.leads ?_
    exact fun _ r pair => behind r pair

/-- The end of the check of a foreign function, whose types are in place. The host may have found it only
when the leading check asked. -/
theorem checkForeign_end_follows (ready : s.Consistent w.env n) (begun : Begun key flag s)
    (run : (do
      if let some visible := w.env.services.visible then
        let s ← get
        let (found, host) := visible name s.host
        set { s with host }
        if !found then Check.fail span (.foreignMissing name)
      keepBody key .foreign : Check σ Unit) s = .ok () s') :
    Finished w n key s s' ∧ ∀ t, Matched key s t → w.Closes key s s' t (do
      if let some visible := w.other.services.visible then
        let s ← get
        let (found, host) := visible name s.host
        set { s with host }
        if !found then Check.fail span (.foreignMissing name)
      keepBody key .foreign) := by
  cases asked : w.env.services.visible with
  | none =>
    simp only [asked] at run
    obtain rfl := keepBody_ok.mp run
    refine ⟨⟨s, _, flag, (Window.Moves.refl ready).labours, begun, rfl⟩, fun t matched => .given ?_⟩
    intro chased _ _ _ _
    simp only [chased.services, asked]
    exact closes_keep matched
  | some visible =>
    simp only [asked, Check.bind_ok, Check.get_ok, Check.set_ok, Check.guard_ok] at run
    obtain ⟨_, _, ⟨rfl, rfl⟩, _, _, rfl, there, run⟩ := run
    obtain rfl := keepBody_ok.mp run
    have step : w.Moves n s { s with host := (visible name s.host).2 } :=
      .of_fields ready rfl rfl rfl rfl (Nat.le_refl _)
    refine ⟨⟨_, _, flag, step.labours, begun, rfl⟩, fun t matched => .given ?_⟩
    intro chased _ _ _ _ _ _ _ _ trails
    have askedToo : w.other.services.visible = some visible := chased.services ▸ asked
    cases answer : (visible name t.host).1 with
    | true =>
      have ran : (do
          let s ← get
          let (found, host) := visible name s.host
          set { s with host }
          if !found then Check.fail span (.foreignMissing name)
          keepBody key .foreign : Check σ Unit) t = .ok ()
            { t with host := (visible name t.host).2, bodies := (key, .foreign) :: t.bodies } := by
        simp [Check.bind_ok, Check.get_ok, Check.set_ok, answer, keepBody_ok]
      simp only [askedToo, ran]
      exact ⟨trails.of_fields rfl rfl rfl, matched⟩
    | false =>
      have ran : (do
          let s ← get
          let (found, host) := visible name s.host
          set { s with host }
          if !found then Check.fail span (.foreignMissing name)
          keepBody key .foreign : Check σ Unit) t =
            .error ⟨.foreignMissing name, span.line, span.columnStart⟩
              { t with host := (visible name t.host).2 } := by
        show (if (!(visible name t.host).1) = true then
            (Check.fail span (.foreignMissing name) : Check σ Unit) >>= fun _ => keepBody key .foreign
          else keepBody key .foreign) _ = _
        rw [answer]
        rfl
      simp only [askedToo, ran]
      refine ⟨visible, askedToo, ⟨s.host, ?_⟩, t.host, answer⟩
      simpa using there

theorem checkForeign_follows (moving : w.Moving n) (laid : scope.Laid w.home)
    (ready : s.Consistent w.env n) (new : w.base ≤ key.owner) (begun : Begun key false s)
    (found : s.symbols.member? key = some own) (unset : own.constant = 0)
    (run : checkForeign w.env (checkMember w.env n) scope key decl s = .ok () s') :
    Finished w n key s s' ∧ ∀ t, Paired key false s t →
      w.Closes key s s' t (checkForeign w.other w.reply scope key decl) := by
  unfold checkForeign at run
  rw [Check.bind_ok] at run
  obtain ⟨_, between, params, run⟩ := run
  obtain ⟨first, begunThere, ⟨own, found, unset⟩, one⟩ :=
    foreignParams_follow moving laid ready new begun found unset params
  simp only [Check.bind_ok] at run
  obtain ⟨type, after, resolved, _, typed, stored, _, marked, noted, run⟩ := run
  have ascribed : (do
      let type ← resolveType w.env (checkMember w.env n) scope decl.result
      Check.modifyMember key ({ · with type })
      markTyped key
      return type) between = .ok type marked := by
    simp only [Check.bind_ok, Check.pure_ok]
    exact ⟨type, after, resolved, _, typed, stored, _, marked, noted, rfl, rfl⟩
  obtain ⟨wrote, begunNow, -, ascribes⟩ :=
    ascribe_follows moving laid first.works.consistent new begunThere found unset ascribed
  obtain ⟨finished, closes⟩ := checkForeign_end_follows wrote.works.consistent begunNow run
  refine ⟨(finished.after wrote begunNow).after first begunThere, fun t paired => ?_⟩
  unfold checkForeign
  refine .bind (one t paired) first.leads (wrote.leads.trans finished.leads) ?_
  intro _ v pair
  have split : ∀ tail : Check σ Unit, (do
      let type ← resolveType w.other w.reply scope decl.result
      Check.modifyMember key ({ · with type })
      markTyped key
      tail) = (do
      let type ← resolveType w.other w.reply scope decl.result
      Check.modifyMember key ({ · with type })
      markTyped key
      return type) >>= fun _ => tail := by
    intro tail
    simp only [bind_assoc, pure_bind]
  rw [split]
  refine .bind (ascribes v pair) wrote.leads finished.leads ?_
  rintro _ u ⟨-, pairNow⟩
  obtain ⟨mine, twin, foundThere, foundToo, same, types, -⟩ := pairNow.same
  exact closes u ⟨mine, twin, foundThere, foundToo, types rfl, same⟩

theorem checkPending_follows (moving : w.Moving n) (laid : decl.scope.Laid w.home)
    (ready : s.Consistent w.env n) (new : w.base ≤ key.owner) (listed : w.env.decls.lookup key = some decl)
    (begun : Begun key false s)
    (fits : decl.Fits s.symbols key)
    (fresh : ∀ member, s.symbols.member? key = some member → member.params = [] ∧ member.constant = 0)
    (run : checkPending w.env (checkMember w.env n) key decl s = .ok () s') :
    Finished w n key s s' ∧ ∀ t, Paired key false s t →
      w.Closes key s s' t (checkPending w.other w.reply key decl) := by
  obtain ⟨own, found, -, -, declares⟩ := fits.symbol
  have unset := (fresh own found).2
  unfold checkPending at run ⊢
  cases of : decl.member with
  | val value =>
    simp only [of] at run ⊢
    have written : w.env.decls.lookup key = some ⟨.val value, decl.scope⟩ := of ▸ listed
    exact checkVal_follows moving laid ready new written begun found unset run
  | func =>
    simp only [of] at run ⊢
    exact checkFunc_follows moving laid ready new begun found unset run
  | foreign =>
    simp only [of] at run ⊢
    exact checkForeign_follows moving laid ready new begun found unset run
  | imports | container | expr => simp [of, Member.Declares] at declares

end Typing

end ScriptShell
