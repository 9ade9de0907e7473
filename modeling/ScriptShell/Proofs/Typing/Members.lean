import ScriptShell.Proofs.Typing.Expressions
import ScriptShell.Typing.Unit

/-! The check of a member. A member is marked when it is begun, and only then worked on; the members
it needs leave it alone, since they find it begun. The number of members that are not begun goes
down with every visit, which is why the fuel of a visit suffices. -/
namespace ScriptShell

namespace Checking

variable {σ : Type} {env : CheckEnv σ} {base bound : Nat} {s t u : Checking σ} {S : Symbols}
  {key : MemberKey} {own : Progress}

/-- Notes how far a member is. -/
def mark (key : MemberKey) (own : Progress) (s : Checking σ) : Checking σ :=
  { s with progress := s.progress.map fun entry => if entry.1 = key then (key, own) else entry }

theorem lookup_mark (s : Checking σ) (key other : MemberKey) (own : Progress) :
    (s.mark key own).progress.lookup other =
      if other = key then (s.progress.lookup key).map fun _ => own else s.progress.lookup other := by
  unfold mark
  dsimp only
  induction s.progress with
  | nil => simp
  | cons entry rest ih =>
    obtain ⟨first, progress⟩ := entry
    rw [List.map_cons]
    by_cases mine : first = key
    · subst mine
      by_cases sought : other = first
      · subst sought
        simp
      · have different : (other == first) = false := by simpa using sought
        simp only [if_true, List.lookup_cons, different, sought, if_false] at ih ⊢
        exact ih
    · by_cases sought : other = first
      · subst sought
        simp [mine]
      · have different : (other == first) = false := by simpa using sought
        have apart : (key == first) = false := by simpa using Ne.symm mine
        simp only [mine, if_false, List.lookup_cons, different, apart]
        exact ih

theorem keys_mark (s : Checking σ) (key : MemberKey) (own : Progress) :
    (s.mark key own).progress.map (·.1) = s.progress.map (·.1) := by
  unfold mark
  simp only [List.map_map]
  apply List.map_congr_left
  intro entry _
  by_cases mine : entry.1 = key <;> simp [mine]

theorem pendingCount_mark (begun : own.state ≠ .pending) :
    (s.mark key own).pendingCount ≤ s.pendingCount := by
  unfold pendingCount mark
  rw [List.countP_map]
  apply List.countP_mono_left
  intro entry _ pending
  by_cases mine : entry.1 = key
  · simp [mine, begun] at pending
  · simpa [mine] using pending

/-- The first mark of a member leaves one member less to begin. -/
theorem pendingCount_mark_lt (begun : own.state ≠ .pending)
    (waiting : s.progress.lookup key = some before) (pending : before.state = .pending) :
    (s.mark key own).pendingCount < s.pendingCount := by
  obtain ⟨front, back, split, -⟩ := List.lookup_eq_some_iff.mp waiting
  have less : ∀ entries : List (MemberKey × Progress),
      (entries.map fun entry => if entry.1 = key then (key, own) else entry).countP
        (fun entry => entry.2.state = .pending) ≤
      entries.countP fun entry => entry.2.state = .pending := by
    intro entries
    exact pendingCount_mark (s := { s with progress := entries }) begun
  unfold pendingCount mark
  simp only [split, List.map_append, List.map_cons, if_true, List.countP_append, List.countP_cons,
    begun, pending, decide_false, decide_true, Bool.false_eq_true, if_false]
  have first := less front
  have second := less back
  omega

theorem Grows.mark (begun : own.state ≠ .pending) : s.Grows base (some key) (s.mark key own) where
  below := .refl s
  old _ _ := rfl
  size := rfl
  keys := keys_mark s key own
  begun other progress differs found _ := by
    rw [lookup_mark, if_neg (fun same => differs (congrArg some same))]
    exact found
  kept _ _ _ _ _ := rfl
  pending := pendingCount_mark begun
  bodies _ listed := listed
  locals := Nat.le_refl _
  worded h := h
  valued h := h

/-- Work on a member, which may settle it. -/
structure Works (env : CheckEnv σ) (base bound : Nat) (key : MemberKey) (s t : Checking σ) :
    Prop where
  grows : s.Grows base (some key) t
  lower : ∀ S, t.Below S → s.Below S
  consistent : t.Consistent env bound

theorem Works.trans (first : s.Works env base bound key t) (second : t.Works env base bound key u) :
    s.Works env base bound key u :=
  ⟨first.grows.trans second.grows first.lower, fun S below => first.lower S (second.lower S below),
    second.consistent⟩

theorem Advances.works (steps : s.Advances env base bound t) : s.Works env base bound key t :=
  ⟨steps.grows.weaken, fun _ => steps.below, steps.consistent⟩

/-- A member that is begun, with the given flag for its type. -/
def Begun (key : MemberKey) (typed : Bool) (s : Checking σ) : Prop :=
  s.progress.lookup key = some ⟨.checking, typed⟩

theorem Begun.advances (begun : Begun key typed s) (steps : s.Advances env base bound t) :
    Begun key typed t :=
  steps.grows.begun key _ (by simp) begun (by simp)

theorem Begun.member? (begun : Begun key typed s) (steps : s.Advances env base bound t) :
    t.symbols.member? key = s.symbols.member? key :=
  steps.grows.kept key _ (by simp) begun (by simp)

theorem Begun.not_pending (begun : Begun key typed s) :
    ∀ own, s.progress.lookup key = some own → own.state ≠ .pending := by
  intro own listed
  rw [begun] at listed
  cases listed
  simp

/-- A change of the member that is worked on. -/
theorem Works.edit (ready : s.Consistent env bound) (new : base ≤ key.owner)
    (begun : Begun key typed s) {f : MemberSymbol → MemberSymbol}
    (keeps : ∀ member, (f member).shape = member.shape)
    (valued : ∀ member, member.type.OfMember → (f member).type.OfMember)
    (free : typed = false ∨ ∀ member, (f member).type = member.type ∧
      (f member).params = member.params)
    (words : ∀ member, s.symbols.member? key = some member → member.kind = .inlineVal →
      member.constant = 0 ∨ member.type = .int → (f member).constant = 0 ∨ (f member).type = .int) :
    s.Works env base bound key { s with symbols := s.symbols.modifyMember key f } := by
  have open_ : ¬ s.Settled key ∨ ∀ member, (f member).type = member.type ∧
      (f member).params = member.params := by
    refine free.imp_left ?_
    rintro rfl settled
    exact not_typed_of_checking begun settled.1
  have grows : s.Grows base (some key) _ := Grows.edit new keeps valued open_ (.inl rfl) words
  exact ⟨grows, fun S => grows.below.lower rfl,
    ready.edit new keeps valued open_ (.inl begun.not_pending) words⟩

/-- The type of a member that is no inline value, or of one without a constant, is written. -/
theorem Works.setType (ready : s.Consistent env bound) (new : base ≤ key.owner)
    (begun : Begun key false s) (found : s.symbols.member? key = some member)
    (unset : member.kind = .inlineVal → member.constant = 0) {type : Ty} (valued : type.OfMember) :
    s.Works env base bound key { s with symbols := s.symbols.modifyMember key ({ · with type }) } := by
  refine .edit ready new begun (fun _ => rfl) (fun _ _ => valued) (.inl rfl) ?_
  intro own present kind _
  rw [found, Option.some.injEq] at present
  subst present
  exact .inl (unset kind)

/-- The type of the member that is worked on is known from here on. -/
theorem Works.typed (ready : s.Consistent env bound) (begun : Begun key false s) :
    s.Works env base bound key (s.mark key ⟨.checking, true⟩) := by
  have grows : s.Grows base (some key) (s.mark key ⟨.checking, true⟩) := .mark (by simp)
  have lower : ∀ S, (s.mark key ⟨.checking, true⟩).Below S → s.Below S := by
    intro S
    apply grows.below_of
    rintro _ ⟨⟩
    exact not_typed_of_checking begun
  refine ⟨grows, lower, ready.of_grows grows lower ?_ ?_ rfl⟩
  · intro entry listed
    obtain ⟨before, present, rfl⟩ := List.mem_map.mp listed
    by_cases mine : before.1 = key
    · simp [mine]
    · simpa [mine] using ready.flags before present
  · intro other own listed pending member found
    rw [lookup_mark] at listed
    split at listed
    next =>
      obtain ⟨_, -, rfl⟩ := Option.map_eq_some_iff.mp listed
      cases pending
    next => exact ready.waiting other own listed pending member found

theorem begun_mark (present : s.progress.lookup key = some before) :
    Begun key typed (s.mark key ⟨.checking, typed⟩) := by
  unfold Begun
  rw [lookup_mark, if_pos rfl, present]
  rfl

theorem Consistent.weaken (ready : s.Consistent env bound) (more : bound ≤ room) :
    s.Consistent env room :=
  { ready with pending := Nat.le_trans ready.pending more }

/-- Work on a member that was not begun changes nothing that was. -/
theorem Works.advances (works : s.Works env base bound key t)
    (waiting : s.progress.lookup key = some ⟨.pending, false⟩) :
    s.Advances env base (bound + 1) t := by
  have other : ∀ {key' own}, s.progress.lookup key' = some own → own.state ≠ .pending →
      some key' ≠ some key := by
    rintro _ own listed begun ⟨⟩
    rw [waiting] at listed
    cases listed
    exact begun rfl
  refine ⟨{ works.grows with begun := ?_, kept := ?_ }, works.consistent.weaken (Nat.le_succ _)⟩
  · exact fun key' own _ listed begun => works.grows.begun key' own (other listed begun) listed begun
  · exact fun key' own _ listed begun => works.grows.kept key' own (other listed begun) listed begun

end Checking

namespace Typing

open Checking

variable {σ : Type} {env : CheckEnv σ} {base bound : Nat} {visit : Visit σ} {s s' : Checking σ}
  {key : MemberKey}

/-- The written type of a member becomes its type, which is known from then on. -/
theorem ascribe_spec (visits : VisitKeeps env base bound visit) (ready : s.Consistent env bound)
    (new : base ≤ key.owner) (begun : Begun key false s)
    (found : s.symbols.member? key = some member)
    (unset : member.kind = .inlineVal → member.constant = 0)
    (run : (do
      let type ← resolveType env visit scope ref
      Check.modifyMember key ({ · with type })
      markTyped key
      return type) s = .ok type s') :
    s.Works env base bound key s' ∧ Begun key true s' ∧
      s'.symbols.member? key = some { member with type } := by
  simp only [markTyped, Check.bind_ok, Check.modifyMember_ok, Check.setProgress_ok,
    Check.pure_ok] at run
  obtain ⟨type, t, resolved, _, _, rfl, _, _, rfl, rfl, rfl⟩ := run
  have steps := (resolveType_spec visits ready resolved).1
  have still := begun.advances steps
  have edit : t.Works env base bound key _ :=
    .setType steps.consistent new still ((begun.member? steps).trans found) unset
      (resolveType_ofMember visits ready resolved)
  refine ⟨(steps.works.trans edit).trans (.typed edit.consistent still), begun_mark still, ?_⟩
  exact Symbols.found_modifyMember ((begun.member? steps).trans found) fun _ => rfl

/-- What the check of a body leaves behind, but for the last mark of the member: the body fits all
later symbols that agree on the member itself. -/
def Ends (env : CheckEnv σ) (base bound : Nat) (key : MemberKey) (decl : PendingDecl)
    (s s' : Checking σ) : Prop :=
  ∃ t body, s' = { t with bodies := (key, body) :: t.bodies } ∧ s.Works env base bound key t ∧
    ∀ S, t.Below S → (∀ before after, t.symbols.member? key = some before →
      S.member? key = some after → after.type = before.type ∧ after.params = before.params) →
      body.Fits decl S key

/-- A service was asked. -/
theorem Advances.asked (ready : s.Consistent env bound) (state : σ) :
    s.Advances env base bound { s with host := state } :=
  .of_fields ready rfl rfl rfl (Nat.le_refl _)

theorem inlineValue_spec (ready : s.Consistent env bound)
    (run : inlineValue env decl init s = .ok value s') : s.Advances env base bound s' := by
  unfold inlineValue at run
  cases asked : env.services.evaluate with
  | none => simp [asked, Check.fail_ok] at run
  | some evaluate =>
    simp only [asked, Check.bind_ok, Check.get_ok, Check.set_ok] at run
    obtain ⟨_, _, ⟨rfl, rfl⟩, _, _, rfl, run⟩ := run
    cases answered : (evaluate s.symbols init s.host).1 with
    | error reason => simp [answered, Check.fail_ok] at run
    | ok found =>
      simp only [answered, Check.pure_ok] at run
      obtain ⟨rfl, rfl⟩ := run
      exact Advances.asked ready _

theorem keepBody_ok {body : CheckedBody} :
    (keepBody key body : Check σ Unit) s = .ok u s' ↔
      { s with bodies := (key, body) :: s.bodies } = s' :=
  Check.modify_ok

theorem ends_of_works (works : s.Works env base bound key t)
    (fits : ∀ S, t.Below S → (∀ before after, t.symbols.member? key = some before →
      S.member? key = some after → after.type = before.type ∧ after.params = before.params) →
      CheckedBody.Fits decl S key body)
    (run : (keepBody key body : Check σ Unit) t = .ok u s') :
    Ends env base bound key decl s s' :=
  ⟨t, body, (keepBody_ok.mp run).symm, works, fits⟩

/-- The end of the check of a value, whose type is in place. -/
theorem checkVal_end (works : s.Works env base bound key t) (new : base ≤ key.owner)
    (begun : Begun key typed t) (isValue : init.type.isValue = true)
    (well : ∀ S, t.Below S → WellTyped S false pending.scope init) (of : pending.member = .val decl)
    (found : t.symbols.member? key = some member) (type : member.type = init.type)
    (run : (do
      if decl.mode = .inline then
        if init.type ≠ .int then Check.fail decl.span (.inlineType decl.name)
        let constant ← inlineValue env decl init
        Check.modifyMember key ({ · with constant })
      keepBody key (.val init) : Check σ Unit) t = .ok u s') :
    Ends env base bound key pending s s' := by
  by_cases inline : decl.mode = .inline
  · simp only [inline, if_true, Check.guard_ok, Check.bind_ok, Check.modifyMember_ok] at run
    obtain ⟨word, constant, between, asked, _, _, rfl, run⟩ := run
    have steps : t.Advances env base bound between := inlineValue_spec works.consistent asked
    have edit : between.Works env base bound key _ :=
      .edit steps.consistent new (begun.advances steps) (f := ({ · with constant })) (fun _ => rfl)
        (fun _ valued => valued) (.inr fun _ => ⟨rfl, rfl⟩) fun own present _ _ => by
          rw [begun.member? steps, found, Option.some.injEq] at present
          exact .inr (present ▸ type.trans (Decidable.not_not.mp word))
    refine ends_of_works ((works.trans steps.works).trans edit) ?_ run
    intro S below same
    refine ⟨decl, of, well S (steps.below (edit.lower S below)), isValue, ?_,
      fun _ => Decidable.not_not.mp word⟩
    intro later present
    rw [← type]
    have stored := Symbols.found_modifyMember (f := ({ · with constant }))
      ((begun.member? steps).trans found) fun _ => rfl
    exact (same _ later stored present).1
  · simp only [inline, if_false] at run
    refine ends_of_works works ?_ run
    intro S below same
    refine ⟨decl, of, well S below, isValue, ?_, fun is => absurd is inline⟩
    intro later present
    rw [← type]
    exact (same member later found present).1

theorem checkVal_spec (visits : VisitKeeps env base bound visit) (ready : s.Consistent env bound)
    (new : base ≤ key.owner) (begun : Begun key false s) (of : pending.member = .val decl)
    (plain : pending.scope.ids = []) (found : s.symbols.member? key = some member)
    (unset : member.kind = .inlineVal → member.constant = 0)
    (run : checkVal env visit pending.scope key decl s = .ok u s') :
    Ends env base bound key pending s s' := by
  have numbered : ∀ t : Checking σ, Numbered pending.scope t := by
    intro t id listed
    rw [plain] at listed
    cases listed
  unfold checkVal at run
  cases ascription : decl.ascription with
  | none =>
    simp only [ascription, Option.mapM_none, pure_bind] at run
    rw [Check.bind_ok] at run
    obtain ⟨init, t, checked, run⟩ := run
    obtain ⟨steps, isValue, well⟩ := checkValue_spec visits ready (numbered s) checked
    rw [Check.bind_ok] at run
    obtain ⟨_, _, typed, run⟩ := run
    obtain rfl := Check.modifyMember_ok.mp typed
    have still : Begun key false t := begun.advances steps
    have edit : t.Works env base bound key _ :=
      .setType steps.consistent new still ((begun.member? steps).trans found) unset
        (checkValue_ofMember checked)
    exact checkVal_end (steps.works.trans edit) new still isValue
      (fun S below => well S (edit.lower S below)) of
      (Symbols.found_modifyMember ((begun.member? steps).trans found) fun _ => rfl) rfl run
  | some ref =>
    simp only [ascription, Option.mapM_some] at run
    rw [Check.bind_ok] at run
    obtain ⟨_, t, written, run⟩ := run
    obtain ⟨type, ascribed, rfl⟩ := Check.map_ok.mp written
    obtain ⟨works, begun, found⟩ := ascribe_spec visits ready new begun found unset ascribed
    rw [Check.bind_ok] at run
    obtain ⟨init, _, checked, run⟩ := run
    obtain ⟨steps, isValue, well⟩ := checkValue_spec visits works.consistent (numbered t) checked
    obtain ⟨same, run⟩ := Check.guardTexts_ok.mp run
    exact checkVal_end (works.trans steps.works) new (begun.advances steps) isValue well of
      ((begun.member? steps).trans found) (Decidable.not_not.mp same).symm run

/-- Parameters are given numbers in increasing order, and the member gets them in their order. -/
theorem checkParams_spec (visits : VisitKeeps env base bound visit) (ready : s.Consistent env bound)
    (new : base ≤ key.owner) (begun : Begun key false s)
    (found : s.symbols.member? key = some member)
    (same : member.params.map (·.type) = locals.map (·.2.type))
    (nodup : (locals.map (·.2.id)).Nodup) (given : ∀ own ∈ locals, own.2.id < s.nextLocal)
    (run : checkParams env visit scope key function locals params s = .ok all s') :
    s.Works env base bound key s' ∧ Begun key false s' ∧
      (∃ later, s'.symbols.member? key = some later ∧ later.kind = member.kind ∧
        later.params.map (·.type) = all.map (·.2.type)) ∧
      (all.map (·.2.id)).Nodup ∧ ∀ own ∈ all, own.2.id < s'.nextLocal := by
  induction params generalizing s locals member with
  | nil =>
    obtain ⟨rfl, rfl⟩ := Check.pure_ok.mp run
    exact ⟨(Advances.refl ready).works, begun, ⟨member, found, rfl, same⟩, nodup, given⟩
  | cons param rest ih =>
    simp only [checkParams, Check.guard_ok, Check.bind_ok, Check.freshLocal_ok,
      Check.modifyMember_ok] at run
    obtain ⟨-, type, t, resolved, _, _, ⟨rfl, rfl⟩, _, _, rfl, run⟩ := run
    have steps := (resolveType_spec visits ready resolved).1
    have number : t.Advances env base bound { t with nextLocal := t.nextLocal + 1 } :=
      .of_fields steps.consistent rfl rfl rfl (Nat.le_succ _)
    have still : Begun key false { t with nextLocal := t.nextLocal + 1 } :=
      (begun.advances steps).advances number
    have edit : Works env base bound key { t with nextLocal := t.nextLocal + 1 } _ :=
      .edit number.consistent new still
        (f := fun member => { member with params := member.params ++ [⟨param.name, type⟩] })
        (fun _ => rfl) (fun _ valued => valued) (.inl rfl) fun _ _ _ words => words
    have first : s.Works env base bound key { t with nextLocal := t.nextLocal + 1 } :=
      (steps.trans number).works
    have earlier : ∀ own ∈ locals, own.2.id < t.nextLocal :=
      fun own listed => Nat.lt_of_lt_of_le (given own listed) steps.grows.locals
    have distinct : ((locals ++ [(param.name, (⟨t.nextLocal, type⟩ : Local))]).map (·.2.id)).Nodup := by
      rw [List.map_append, List.nodup_append]
      refine ⟨nodup, by simp, ?_⟩
      rintro _ listed _ fresh rfl
      obtain ⟨own, present, number⟩ := List.mem_map.mp listed
      simp only [List.map_cons, List.map_nil, List.mem_singleton] at fresh
      exact absurd (earlier own present) (by rw [number, fresh]; exact Nat.lt_irrefl _)
    have below : ∀ own ∈ locals ++ [(param.name, (⟨t.nextLocal, type⟩ : Local))],
        own.2.id < t.nextLocal + 1 := by
      intro own listed
      rcases List.mem_append.mp listed with listed | fresh
      · exact Nat.lt_succ_of_lt (earlier own listed)
      · rw [List.mem_singleton.mp fresh]
        exact Nat.lt_succ_self _
    obtain ⟨more, rest⟩ := ih edit.consistent still
      (Symbols.found_modifyMember ((begun.member? steps).trans found) fun _ => rfl)
      (by simp [same]) distinct below run
    exact ⟨(first.trans edit).trans more, rest⟩

/-- A function whose result type is in place. -/
theorem checkFunc_end (works : s.Works env base bound key t) (isValue : body.type.isValue = true)
    (nodup : (locals.map (·.2.id)).Nodup)
    (well : ∀ S, t.Below S → WellTyped S false ({ locals } :: pending.scope) body)
    (of : pending.member = .func decl) (found : t.symbols.member? key = some member)
    (type : member.type = body.type) (params : member.params.map (·.type) = locals.map (·.2.type))
    (run : (keepBody key (.func (locals.map (·.2.id)) body) : Check σ Unit) t = .ok u s') :
    Ends env base bound key pending s s' := by
  refine ends_of_works works ?_ run
  intro S below same
  refine ⟨decl, locals, of, rfl, nodup, well S below, isValue, ?_⟩
  intro later present
  obtain ⟨types, all⟩ := same member later found present
  rw [types, all]
  exact ⟨type, params⟩

theorem checkFunc_spec (visits : VisitKeeps env base bound visit) (ready : s.Consistent env bound)
    (new : base ≤ key.owner) (begun : Begun key false s) (of : pending.member = .func decl)
    (plain : pending.scope.ids = []) (found : s.symbols.member? key = some member)
    (empty : member.params = []) (kind : member.kind = .func)
    (run : checkFunc env visit pending.scope key decl s = .ok u s') :
    Ends env base bound key pending s s' := by
  unfold checkFunc at run
  rw [Check.bind_ok] at run
  obtain ⟨locals, t, params, run⟩ := run
  obtain ⟨works, begun, ⟨later, found, sort, same⟩, nodup, given⟩ :=
    checkParams_spec visits ready new begun found (by simp [empty]) (by simp) (by simp) params
  have unset : later.kind = .inlineVal → later.constant = 0 := by
    rw [sort, kind]
    rintro ⟨⟩
  have numbered : Numbered ({ locals } :: pending.scope) t := by
    intro id listed
    have inner : Scope.ids ({ locals } :: pending.scope) = locals.map (·.2.id) := by
      simpa [Scope.ids] using plain
    rw [inner] at listed
    obtain ⟨own, present, rfl⟩ := List.mem_map.mp listed
    exact given own present
  cases result : decl.result with
  | none =>
    simp only [result, Option.mapM_none, pure_bind] at run
    rw [Check.bind_ok] at run
    obtain ⟨body, between, checked, run⟩ := run
    obtain ⟨steps, isValue, well⟩ := checkValue_spec visits works.consistent numbered checked
    rw [Check.bind_ok] at run
    obtain ⟨_, _, typed, run⟩ := run
    obtain rfl := Check.modifyMember_ok.mp typed
    have edit : between.Works env base bound key _ :=
      .setType steps.consistent new (begun.advances steps) ((begun.member? steps).trans found) unset
        (checkValue_ofMember checked)
    exact checkFunc_end ((works.trans steps.works).trans edit) isValue nodup
      (fun S below => well S (edit.lower S below)) of
      (Symbols.found_modifyMember ((begun.member? steps).trans found) fun _ => rfl) rfl same run
  | some ref =>
    simp only [result, Option.mapM_some] at run
    rw [Check.bind_ok] at run
    obtain ⟨_, between, written, run⟩ := run
    obtain ⟨type, ascribed, rfl⟩ := Check.map_ok.mp written
    obtain ⟨more, begun, found⟩ := ascribe_spec visits works.consistent new begun found unset ascribed
    rw [Check.bind_ok] at run
    obtain ⟨body, _, checked, run⟩ := run
    have still : Numbered ({ locals } :: pending.scope) between :=
      fun id listed => Nat.lt_of_lt_of_le (numbered id listed) more.grows.locals
    obtain ⟨steps, isValue, well⟩ := checkValue_spec visits more.consistent still checked
    obtain ⟨agrees, run⟩ := Check.guardTexts_ok.mp run
    exact checkFunc_end ((works.trans more).trans steps.works) isValue nodup well of
      ((begun.member? steps).trans found) (Decidable.not_not.mp agrees).symm same run

theorem foreignParams_spec (visits : VisitKeeps env base bound visit)
    (ready : s.Consistent env bound) (new : base ≤ key.owner) (begun : Begun key false s)
    {params : List ParamDecl}
    (run : (forIn params PUnit.unit fun (param : ParamDecl) (_ : PUnit) => (do
      let type ← resolveType env visit scope param.type
      Check.modifyMember key fun member =>
        { member with params := member.params ++ [⟨param.name, type⟩] }
      return .yield PUnit.unit : Check σ (ForInStep PUnit))) s = .ok u s') :
    s.Works env base bound key s' ∧ Begun key false s' := by
  induction params generalizing s with
  | nil =>
    rw [List.forIn_nil] at run
    obtain ⟨-, rfl⟩ := Check.pure_ok.mp run
    exact ⟨(Advances.refl ready).works, begun⟩
  | cons param rest ih =>
    simp only [List.forIn_cons, Check.bind_ok, Check.modifyMember_ok, Check.pure_ok] at run
    obtain ⟨_, _, ⟨type, t, resolved, _, _, rfl, rfl, rfl⟩, run⟩ := run
    have steps := (resolveType_spec visits ready resolved).1
    have still := begun.advances steps
    have edit : t.Works env base bound key _ :=
      .edit steps.consistent new still
        (f := fun member => { member with params := member.params ++ [⟨param.name, type⟩] })
        (fun _ => rfl) (fun _ valued => valued) (.inl rfl) fun _ _ _ words => words
    obtain ⟨more, begun⟩ := ih edit.consistent still run
    exact ⟨(steps.works.trans edit).trans more, begun⟩

theorem checkForeign_spec (visits : VisitKeeps env base bound visit)
    (ready : s.Consistent env bound) (new : base ≤ key.owner) (begun : Begun key false s)
    (of : pending.member = .foreign decl) (found : s.symbols.member? key = some member)
    (kind : member.kind = .foreign)
    (run : checkForeign env visit pending.scope key decl s = .ok u s') :
    Ends env base bound key pending s s' := by
  unfold checkForeign at run
  rw [Check.bind_ok] at run
  obtain ⟨_, t, params, run⟩ := run
  obtain ⟨works, begun⟩ := foreignParams_spec visits ready new begun params
  simp only [markTyped, Check.bind_ok, Check.modifyMember_ok, Check.setProgress_ok] at run
  obtain ⟨type, between, resolved, _, _, rfl, _, _, rfl, run⟩ := run
  have steps := (resolveType_spec visits works.consistent resolved).1
  have still := begun.advances steps
  obtain ⟨later, present, shaped⟩ :=
    Symbols.member?_of_shape (steps.shape.trans works.grows.shape) found
  have unset : later.kind = .inlineVal → later.constant = 0 := by
    rw [MemberSymbol.kind_eq_of_shape shaped, kind]
    rintro ⟨⟩
  have edit : between.Works env base bound key _ :=
    .setType steps.consistent new still present unset
      (resolveType_ofMember visits works.consistent resolved)
  have typed := ((works.trans steps.works).trans edit).trans (.typed edit.consistent still)
  have fits : ∀ S, CheckedBody.Fits pending S key .foreign := fun S => ⟨decl, of⟩
  cases asked : env.services.visible with
  | none =>
    simp only [asked] at run
    exact ends_of_works typed (fun S _ _ => fits S) run
  | some visible =>
    simp only [asked, Check.bind_ok, Check.get_ok, Check.set_ok, Check.guard_ok] at run
    obtain ⟨_, _, ⟨rfl, rfl⟩, _, _, rfl, -, run⟩ := run
    exact ends_of_works (typed.trans (Advances.asked typed.consistent _).works)
      (fun S _ _ => fits S) run

theorem checkPending_spec (visits : VisitKeeps env base bound visit)
    (ready : s.Consistent env bound) (new : base ≤ key.owner) (begun : Begun key false s)
    (fits : pending.Fits s.symbols key)
    (empty : ∀ member, s.symbols.member? key = some member →
      member.params = [] ∧ member.constant = 0)
    (run : checkPending env visit key pending s = .ok u s') :
    Ends env base bound key pending s s' := by
  obtain ⟨member, found, -, -, declares⟩ := fits.symbol
  unfold checkPending at run
  cases of : pending.member with
  | val decl =>
    simp only [of] at run
    exact checkVal_spec visits ready new begun of fits.inside.plain found
      (fun _ => (empty member found).2) run
  | func decl =>
    simp only [of] at run
    rw [of] at declares
    exact checkFunc_spec visits ready new begun of fits.inside.plain found (empty member found).1
      declares.2.1 run
  | foreign decl =>
    simp only [of] at run
    rw [of] at declares
    exact checkForeign_spec visits ready new begun of found declares.2.1 run
  | imports | container | expr => simp [of, Member.Declares] at declares

/-- The last mark of a member: its type is known, and its body fits. -/
theorem Ends.done (ends : Ends env base bound key decl s s')
    (listed : env.decls.lookup key = some decl) :
    s.Works env base bound key (s'.mark key ⟨.done, true⟩) := by
  obtain ⟨t, body, rfl, works, fits⟩ := ends
  have ready := works.consistent
  have settled : ∀ other, t.Settled other →
      (Checking.mark key ⟨.done, true⟩ { t with bodies := (key, body) :: t.bodies }).Settled other := by
    intro other settled
    refine ⟨?_, settled.2⟩
    intro own present
    rw [lookup_mark] at present
    split at present
    next =>
      obtain ⟨_, -, rfl⟩ := Option.map_eq_some_iff.mp present
      simp
    next => exact settled.1 own present
  have lower : ∀ S,
      (Checking.mark key ⟨.done, true⟩ { t with bodies := (key, body) :: t.bodies }).Below S →
      t.Below S := by
    intro S below
    refine ⟨below.shape, ?_⟩
    intro other known
    exact below.types other (settled other known)
  have grows : t.Grows base (some key)
      (Checking.mark key ⟨.done, true⟩ { t with bodies := (key, body) :: t.bodies }) := by
    have marked : Grows base (some key) { t with bodies := (key, body) :: t.bodies }
        (Checking.mark key ⟨.done, true⟩ { t with bodies := (key, body) :: t.bodies }) :=
      .mark (by simp)
    exact { marked with
      below := .refl t
      bodies := List.subset_cons_self _ _ }
  refine ⟨works.grows.trans grows works.lower, fun S below => works.lower S (lower S below), ?_⟩
  constructor
  case keys => exact grows.keys.trans ready.keys
  case flags =>
    intro entry present
    obtain ⟨before, earlier, rfl⟩ := List.mem_map.mp present
    by_cases mine : before.1 = key
    · simp [mine]
    · simpa [mine] using ready.flags before earlier
  case pending => exact Nat.le_trans grows.pending ready.pending
  case decls => exact ready.decls
  case waiting =>
    intro other own present pending member found
    rw [lookup_mark] at present
    split at present
    next =>
      obtain ⟨_, -, rfl⟩ := Option.map_eq_some_iff.mp present
      cases pending
    next => exact ready.waiting other own present pending member found
  case bodies =>
    intro S below entry present
    rcases List.mem_cons.mp present with rfl | earlier
    · refine ⟨decl, listed, fits S (lower S below) ?_⟩
      intro before after found later
      refine below.types key ⟨?_, ?_⟩ before after found later
      · intro own marked
        rw [lookup_mark, if_pos rfl] at marked
        obtain ⟨_, -, rfl⟩ := Option.map_eq_some_iff.mp marked
        simp
      · intro member present
        obtain ⟨declared, known, -, stored, -⟩ := (ready.decls key decl listed).symbol
        have same : t.symbols.member? key = some member := present
        rw [known, Option.some.injEq] at same
        rw [← same]
        exact stored
    · exact ready.bodies S (lower S below) entry earlier

/-- What every visit asks of the members of a unit: they belong to its own containers. -/
def Owned (env : CheckEnv σ) (base : Nat) : Prop :=
  ∀ key decl, env.decls.lookup key = some decl → base ≤ key.owner

/-- A member that is begun leaves one less for the members it needs. -/
theorem begin_works (ready : s.Consistent env (fuel + 1))
    (waiting : s.progress.lookup key = some ⟨.pending, false⟩) :
    s.Works env base fuel key (s.mark key ⟨.checking, false⟩) := by
  have grows : s.Grows base (some key) (s.mark key ⟨.checking, false⟩) := .mark (by simp)
  have lower : ∀ S, (s.mark key ⟨.checking, false⟩).Below S → s.Below S := by
    intro S
    apply grows.below_of
    rintro _ ⟨⟩
    exact not_typed_of_checking waiting
  have flags : ∀ entry ∈ (s.mark key ⟨.checking, false⟩).progress,
      (entry.2.state = .done → entry.2.typed = true) ∧
      (entry.2.typed = true → entry.2.state ≠ .pending) := by
    intro entry present
    obtain ⟨before, earlier, rfl⟩ := List.mem_map.mp present
    by_cases mine : before.1 = key
    · simp [mine]
    · simpa [mine] using ready.flags before earlier
  have still : (s.mark key ⟨.checking, false⟩).Waiting := by
    intro other own present pending member found
    rw [lookup_mark] at present
    split at present
    next =>
      obtain ⟨_, -, rfl⟩ := Option.map_eq_some_iff.mp present
      cases pending
    next => exact ready.waiting other own present pending member found
  have less : (s.mark key ⟨.checking, false⟩).pendingCount < s.pendingCount :=
    pendingCount_mark_lt (by simp) waiting rfl
  refine ⟨grows, lower, { ready.of_grows grows lower flags still rfl with pending := ?_ }⟩
  exact Nat.le_of_lt_succ (Nat.lt_of_lt_of_le less ready.pending)

/-- The induction is on the fuel, which bounds how many members are not begun. -/
theorem checkMember_keeps (owned : Owned env base) (fuel : Nat) :
    VisitKeeps env base fuel (checkMember env fuel) := by
  induction fuel with
  | zero =>
    constructor
    · intro key s s' ready run
      obtain ⟨-, rfl⟩ := Check.pure_ok.mp run
      exact .refl ready
    · intro key s s' ready run waiting
      have positive : 0 < s.pendingCount :=
        List.countP_pos_iff.mpr ⟨_, mem_of_lookup waiting, by simp⟩
      exact absurd ready.pending (Nat.not_le_of_lt positive)
  | succ fuel ih =>
    have visited : ∀ key s s', s.Consistent env (fuel + 1) →
        checkMember env (fuel + 1) key s = .ok () s' → s.Advances env base (fuel + 1) s' ∧
          (s.progress.lookup key = some ⟨.pending, false⟩ → s'.Typed key) := by
      intro key s s' ready run
      simp only [checkMember, Check.bind_ok, Check.progress?_ok] at run
      obtain ⟨_, _, ⟨rfl, rfl⟩, run⟩ := run
      cases listed : env.decls.lookup key with
      | none =>
        simp only [listed, Check.pure_ok] at run
        obtain ⟨-, rfl⟩ := run
        refine ⟨.refl ready, fun waiting => ?_⟩
        have present := lookup_isSome_iff_of_keys ready.keys key
        rw [waiting, listed] at present
        simp at present
      | some decl =>
        cases present : s.progress.lookup key with
        | none =>
          simp only [listed, present, Check.pure_ok] at run
          obtain ⟨-, rfl⟩ := run
          exact ⟨.refl ready, fun waiting => by simp at waiting⟩
        | some own =>
          simp only [listed, present] at run
          split at run
          next pending =>
            have untyped : own = ⟨.pending, false⟩ := by
              obtain ⟨state, typed⟩ := own
              obtain rfl : state = .pending := pending
              cases typed with
              | false => rfl
              | true => exact absurd rfl ((ready.flags _ (mem_of_lookup present)).2 rfl)
            subst untyped
            simp only [Check.bind_ok, Check.setProgress_ok] at run
            obtain ⟨_, _, rfl, _, t, body, rfl⟩ := run
            have first : s.Works env base fuel key (s.mark key ⟨.checking, false⟩) :=
              begin_works ready present
            have ends := checkPending_spec ih first.consistent (owned key decl listed)
              (begun_mark present) (first.consistent.decls key decl listed)
              (fun member found => ready.waiting key _ present rfl member found) body
            refine ⟨Works.advances (first.trans (ends.done listed)) present, fun _ => ?_⟩
            intro own marked
            have marked : (t.mark key ⟨.done, true⟩).progress.lookup key = some own := marked
            rw [lookup_mark, if_pos rfl] at marked
            obtain ⟨_, -, rfl⟩ := Option.map_eq_some_iff.mp marked
            simp
          next begun =>
            obtain ⟨-, rfl⟩ := Check.pure_ok.mp run
            refine ⟨.refl ready, fun waiting => ?_⟩
            rw [Option.some.injEq] at waiting
            subst waiting
            exact absurd rfl begun
    exact ⟨fun key s s' ready run => (visited key s s' ready run).1,
      fun key s s' ready run => (visited key s s' ready run).2⟩

end Typing

end ScriptShell
