import ScriptShell.Proofs.Typing.Declarations

/-! What a check may change. Members are settled one after the other: a member whose type is known
keeps it, a member being checked is left alone by the members it needs, and the containers of
finished units stay as they are. The relation `Grows` says so for any number of steps, and
`Consistent` is the invariant that every step keeps. -/
namespace ScriptShell

theorem lookup_isSome_iff_of_keys [BEq κ] [LawfulBEq κ] {first : List (κ × α)}
    {second : List (κ × β)} (same : first.map (·.1) = second.map (·.1)) (key : κ) :
    (first.lookup key).isSome = (second.lookup key).isSome := by
  induction first generalizing second with
  | nil =>
    cases second with
    | nil => rfl
    | cons entry rest => simp at same
  | cons entry rest ih =>
    cases second with
    | nil => simp at same
    | cons other others =>
      obtain ⟨entryKey, value⟩ := entry
      obtain ⟨otherKey, otherValue⟩ := other
      simp only [List.map_cons, List.cons.injEq] at same
      obtain ⟨rfl, same⟩ := same
      by_cases equal : key == entryKey
      · simp [List.lookup_cons, equal]
      · simp only [List.lookup_cons, equal]
        exact ih same

theorem mem_of_lookup [BEq κ] [LawfulBEq κ] {entries : List (κ × α)} {key : κ} {value : α}
    (found : entries.lookup key = some value) : (key, value) ∈ entries := by
  obtain ⟨before, after, rfl, -⟩ := List.lookup_eq_some_iff.mp found
  simp

namespace Checking

variable {σ : Type}

/-- The check of a member is far enough for its type to be known. -/
def Typed (s : Checking σ) (key : MemberKey) : Prop :=
  ∀ own, s.progress.lookup key = some own → own.typed = true ∧ own.state ≠ .pending

/-- The type and the parameters of a member stay as they are. -/
def Settled (s : Checking σ) (key : MemberKey) : Prop :=
  s.Typed key ∧ ∀ member, s.symbols.member? key = some member → member.isParam = false

/-- The types of the function that an expression names are known. -/
def Knows (s : Checking σ) (typed : TypedExpr) : Prop :=
  ∀ key, typed.calleeMember? = some key → s.Typed key

/-- Later symbols: they have the shape of the present ones, and agree on what is settled. -/
structure Below (s : Checking σ) (S : Symbols) : Prop where
  shape : S.shape = s.symbols.shape
  types : ∀ key, s.Settled key → ∀ before after, s.symbols.member? key = some before →
    S.member? key = some after → after.type = before.type ∧ after.params = before.params

/-- How many members of the unit are not begun. -/
def pendingCount (s : Checking σ) : Nat := s.progress.countP (·.2.state = .pending)

/-- What steps may change, while the member `but` is being checked. -/
structure Grows (base : Nat) (but : Option MemberKey) (s s' : Checking σ) : Prop where
  below : s.Below s'.symbols
  /-- The containers of finished units have the numbers under `base`. -/
  old : ∀ id < base, s'.symbols.get id = s.symbols.get id
  size : s'.symbols.containers.size = s.symbols.containers.size
  keys : s'.progress.map (·.1) = s.progress.map (·.1)
  begun : ∀ key own, some key ≠ but → s.progress.lookup key = some own → own.state ≠ .pending →
    s'.progress.lookup key = some own
  /-- Only its own check changes a member that is begun. -/
  kept : ∀ key own, some key ≠ but → s.progress.lookup key = some own → own.state ≠ .pending →
    s'.symbols.member? key = s.symbols.member? key
  pending : s'.pendingCount ≤ s.pendingCount
  bodies : s.bodies ⊆ s'.bodies
  locals : s.nextLocal ≤ s'.nextLocal
  worded : s.symbols.Worded → s'.symbols.Worded
  valued : s.symbols.Valued → s'.symbols.Valued

variable {base : Nat} {but : Option MemberKey} {s t u : Checking σ} {S : Symbols} {key : MemberKey}

theorem Below.refl (s : Checking σ) : s.Below s.symbols where
  shape := rfl
  types := by
    intro key _ before after found again
    rw [found] at again
    cases again
    exact ⟨rfl, rfl⟩

theorem Grows.refl (s : Checking σ) : s.Grows base but s where
  below := .refl s
  old _ _ := rfl
  size := rfl
  keys := rfl
  begun _ _ _ found _ := found
  kept _ _ _ _ _ := rfl
  pending := Nat.le_refl _
  bodies _ h := h
  locals := Nat.le_refl _
  worded h := h
  valued h := h

theorem Grows.shape (grows : s.Grows base but t) : t.symbols.shape = s.symbols.shape :=
  grows.below.shape

theorem Grows.typed (grows : s.Grows base but t) (other : but ≠ some key) (known : s.Typed key) :
    t.Typed key := by
  intro own found
  have present := lookup_isSome_iff_of_keys grows.keys key
  rw [found, Option.isSome_some, eq_comm, Option.isSome_iff_exists] at present
  obtain ⟨before, listed⟩ := present
  have same := grows.begun key before other.symm listed (known before listed).2
  rw [found] at same
  cases same
  exact known _ listed

theorem Grows.settled (grows : s.Grows base but t) (other : but ≠ some key)
    (settled : s.Settled key) : t.Settled key := by
  refine ⟨grows.typed other settled.1, ?_⟩
  intro member found
  obtain ⟨before, listed, same⟩ := Symbols.member?_of_shape grows.shape.symm found
  rw [MemberSymbol.isParam_eq_of_shape same.symm]
  exact settled.2 before listed

theorem Grows.weaken (grows : s.Grows base none t) : s.Grows base but t :=
  { grows with
    begun := fun key own _ => grows.begun key own (by simp)
    kept := fun key own _ => grows.kept key own (by simp) }

theorem Grows.below_of (grows : s.Grows base but t) (open_ : ∀ key, but = some key → ¬ s.Typed key)
    (below : t.Below S) : s.Below S where
  shape := below.shape.trans grows.shape
  types := by
    intro key settled before after found listed
    have other : but ≠ some key := fun same => open_ key same settled.1
    obtain ⟨between, present, -⟩ := Symbols.member?_of_shape grows.shape found
    have first := grows.below.types key settled before between found present
    have second := below.types key (grows.settled other settled) between after present listed
    exact ⟨second.1.trans first.1, second.2.trans first.2⟩

theorem Grows.trans (grows : s.Grows base but t) (further : t.Grows base but u)
    (lower : ∀ S, t.Below S → s.Below S) : s.Grows base but u where
  below := lower _ further.below
  old id small := (further.old id small).trans (grows.old id small)
  size := further.size.trans grows.size
  keys := further.keys.trans grows.keys
  begun key own other found begun :=
    further.begun key own other (grows.begun key own other found begun) begun
  kept key own other found begun :=
    (further.kept key own other (grows.begun key own other found begun) begun).trans
      (grows.kept key own other found begun)
  pending := Nat.le_trans further.pending grows.pending
  bodies := List.Subset.trans grows.bodies further.bodies
  locals := Nat.le_trans grows.locals further.locals
  worded h := further.worded (grows.worded h)
  valued h := further.valued (grows.valued h)

end Checking

/-- The body of a member fits the symbols: it is well-typed in the scope of the member, and the
member has its type. -/
def CheckedBody.Fits (decl : PendingDecl) (S : Symbols) (key : MemberKey) :
    CheckedBody → Prop
  | .val init => ∃ own, decl.member = .val own ∧ WellTyped S false decl.scope init ∧
      init.type.isValue = true ∧ (∀ member, S.member? key = some member → member.type = init.type) ∧
      (own.mode = .inline → init.type = .int)
  | .func ids body => ∃ own locals, decl.member = .func own ∧
      locals.map (·.2.id) = ids ∧ ids.Nodup ∧ WellTyped S false ({ locals } :: decl.scope) body ∧
      body.type.isValue = true ∧ (∀ member, S.member? key = some member →
        member.type = body.type ∧ member.params.map (·.type) = locals.map (·.2.type))
  | .foreign => ∃ own, decl.member = .foreign own

/-- Functions get their parameters and inline values their constants when they are begun. -/
def Checking.Waiting {σ : Type} (s : Checking σ) : Prop :=
  ∀ key own, s.progress.lookup key = some own → own.state = .pending →
    ∀ member, s.symbols.member? key = some member → member.params = [] ∧ member.constant = 0

/-- The invariant of a check. `bound` limits how many members are not begun. -/
structure Checking.Consistent {σ : Type} (env : CheckEnv σ) (bound : Nat) (s : Checking σ) :
    Prop where
  keys : s.progress.map (·.1) = env.decls.map (·.1)
  flags : ∀ entry ∈ s.progress, (entry.2.state = .done → entry.2.typed = true) ∧
    (entry.2.typed = true → entry.2.state ≠ .pending)
  pending : s.pendingCount ≤ bound
  decls : ∀ key decl, env.decls.lookup key = some decl → decl.Fits s.symbols key
  waiting : s.Waiting
  bodies : ∀ S, s.Below S → ∀ entry ∈ s.bodies, ∃ decl, env.decls.lookup entry.1 = some decl ∧
    entry.2.Fits decl S entry.1

/-- Steps that keep the invariant and change nothing they may not change. -/
structure Checking.Advances {σ : Type} (env : CheckEnv σ) (base bound : Nat) (s s' : Checking σ) :
    Prop where
  grows : s.Grows base none s'
  consistent : s'.Consistent env bound

namespace Checking

variable {σ : Type} {env : CheckEnv σ} {base bound : Nat} {s t u : Checking σ} {S : Symbols}
  {key : MemberKey}

theorem Advances.refl (ready : s.Consistent env bound) : s.Advances env base bound s :=
  ⟨.refl s, ready⟩

theorem Advances.trans (first : s.Advances env base bound t) (second : t.Advances env base bound u) :
    s.Advances env base bound u :=
  ⟨first.grows.trans second.grows fun _ => first.grows.below_of (by simp), second.consistent⟩

theorem Advances.below (steps : s.Advances env base bound t) (below : t.Below S) : s.Below S :=
  steps.grows.below_of (by simp) below

theorem Advances.typed (steps : s.Advances env base bound t) (known : s.Typed key) : t.Typed key :=
  steps.grows.typed (by simp) known

theorem Advances.shape (steps : s.Advances env base bound t) : t.symbols.shape = s.symbols.shape :=
  steps.grows.shape

/-- The invariant is about what may not change, about the flags, and about the bodies there are. -/
theorem Consistent.of_grows (ready : s.Consistent env bound) (grows : s.Grows base but t)
    (lower : ∀ S, t.Below S → s.Below S)
    (flags : ∀ entry ∈ t.progress, (entry.2.state = .done → entry.2.typed = true) ∧
      (entry.2.typed = true → entry.2.state ≠ .pending))
    (waiting : t.Waiting) (bodies : t.bodies = s.bodies) : t.Consistent env bound where
  keys := grows.keys.trans ready.keys
  flags
  waiting
  pending := Nat.le_trans grows.pending ready.pending
  decls key decl listed := (ready.decls key decl listed).of_shape grows.shape
  bodies S below entry listed := ready.bodies S (lower S below) entry (bodies ▸ listed)

/-- Where no progress is made, the same members are settled. -/
theorem Below.lower (below : s.Below t.symbols) (progress : t.progress = s.progress)
    (later : t.Below S) : s.Below S where
  shape := later.shape.trans below.shape
  types := by
    intro key settled before after found listed
    obtain ⟨between, present, shaped⟩ := Symbols.member?_of_shape below.shape found
    have still : t.Settled key := by
      refine ⟨fun own listed => settled.1 own (progress ▸ listed), ?_⟩
      intro member found'
      rw [present, Option.some.injEq] at found'
      rw [← found', MemberSymbol.isParam_eq_of_shape shaped]
      exact settled.2 before found
    have first := below.types key settled before between found present
    have second := later.types key still between after present listed
    exact ⟨second.1.trans first.1, second.2.trans first.2⟩

/-- A state that differs in nothing but the paths of imports, the host, and a larger number for the
next local. -/
theorem Advances.of_fields (ready : s.Consistent env bound) (symbols : t.symbols = s.symbols)
    (progress : t.progress = s.progress) (bodies : t.bodies = s.bodies)
    (locals : s.nextLocal ≤ t.nextLocal) : s.Advances env base bound t := by
  have grows : s.Grows base none t :=
    { below := symbols ▸ .refl s
      old := fun _ _ => by rw [symbols]
      size := by rw [symbols]
      keys := by rw [progress]
      begun := fun _ _ _ found _ => progress ▸ found
      kept := fun _ _ _ _ _ => by rw [symbols]
      pending := Nat.le_of_eq (by unfold pendingCount; rw [progress])
      bodies := by rw [bodies]; exact fun _ h => h
      locals
      worded := by rw [symbols]; exact fun h => h
      valued := by rw [symbols]; exact fun h => h }
  have waiting : t.Waiting := by
    unfold Waiting
    rw [symbols, progress]
    exact ready.waiting
  exact ⟨grows, ready.of_grows grows (fun S => grows.below.lower progress)
    (progress ▸ ready.flags) waiting bodies⟩

/-- A change of a member that is not settled, or that leaves its type and parameters alone. -/
theorem Grows.edit (new : base ≤ key.owner) {f : MemberSymbol → MemberSymbol}
    (keeps : ∀ member, (f member).shape = member.shape)
    (valued : ∀ member, member.type.OfMember → (f member).type.OfMember)
    (free : ¬ s.Settled key ∨ ∀ member, (f member).type = member.type ∧
      (f member).params = member.params)
    (aside : but = some key ∨ s.progress.lookup key = none)
    (words : ∀ member, s.symbols.member? key = some member → member.kind = .inlineVal →
      member.constant = 0 ∨ member.type = .int → (f member).constant = 0 ∨ (f member).type = .int) :
    s.Grows base but { s with symbols := s.symbols.modifyMember key f } := by
  have names : ∀ member, (f member).name = member.name :=
    fun member => MemberSymbol.name_eq_of_shape (keeps member)
  constructor
  case below =>
    refine ⟨Symbols.shape_modifyMember _ _ keeps, ?_⟩
    intro other settled before after found later
    simp only [Symbols.member?_modifyMember names] at later
    split at later
    next same =>
      rw [found, Option.map_some, Option.some.injEq] at later
      subst same later
      exact (free.resolve_left (fun open_ => open_ settled)) before
    next =>
      rw [found, Option.some.injEq] at later
      subst later
      exact ⟨rfl, rfl⟩
  case old =>
    intro id small
    rw [Symbols.get_modifyMember, if_neg]
    rintro rfl
    exact Nat.not_lt_of_le new small
  case size => exact Symbols.size_modify _ _ _
  case keys => rfl
  case begun => exact fun _ _ _ found _ => found
  case kept =>
    intro other own differs listed _
    simp only [Symbols.member?_modifyMember names]
    rw [if_neg]
    rintro rfl
    rcases aside with rfl | absent
    · exact differs rfl
    · rw [absent] at listed
      cases listed
  case pending => exact Nat.le_refl _
  case bodies => exact fun _ listed => listed
  case locals => exact Nat.le_refl _
  case worded =>
    intro worded other member found kind
    simp only [Symbols.member?_modifyMember names] at found
    split at found
    next same =>
      subst same
      obtain ⟨before, present, rfl⟩ := Option.map_eq_some_iff.mp found
      rw [MemberSymbol.kind_eq_of_shape (keeps before)] at kind
      exact words before present kind (worded _ before present kind)
    next => exact worded other member found kind
  case valued =>
    intro before other member found
    simp only [Symbols.member?_modifyMember names] at found
    split at found
    next same =>
      subst same
      obtain ⟨member, present, rfl⟩ := Option.map_eq_some_iff.mp found
      exact valued member (before _ member present)
    next => exact before other member found

theorem Consistent.edit (ready : s.Consistent env bound) (new : base ≤ key.owner)
    {f : MemberSymbol → MemberSymbol} (keeps : ∀ member, (f member).shape = member.shape)
    (valued : ∀ member, member.type.OfMember → (f member).type.OfMember)
    (free : ¬ s.Settled key ∨ ∀ member, (f member).type = member.type ∧
      (f member).params = member.params)
    (begun : (∀ own, s.progress.lookup key = some own → own.state ≠ .pending) ∨
      ∀ member, (f member).params = member.params ∧ (f member).constant = member.constant)
    (words : ∀ member, s.symbols.member? key = some member → member.kind = .inlineVal →
      member.constant = 0 ∨ member.type = .int → (f member).constant = 0 ∨ (f member).type = .int) :
    Consistent env bound { s with symbols := s.symbols.modifyMember key f } := by
  have grows : s.Grows base (some key) _ := Grows.edit new keeps valued free (.inl rfl) words
  refine ready.of_grows grows (fun S => grows.below.lower rfl) ready.flags ?_ rfl
  intro other own listed pending member found
  simp only [Symbols.member?_modifyMember fun member => MemberSymbol.name_eq_of_shape (keeps member)]
    at found
  split at found
  next same =>
    subst same
    obtain ⟨before, present, rfl⟩ := Option.map_eq_some_iff.mp found
    obtain ⟨params, constant⟩ := begun.resolve_left (fun begun => begun own listed pending) before
    rw [params, constant]
    exact ready.waiting key own listed pending before present
  next => exact ready.waiting other own listed pending member found

/-- The type of a member that is begun and not typed is not settled. -/
theorem not_typed_of_checking (checking : s.progress.lookup key = some ⟨state, false⟩) :
    ¬ s.Typed key :=
  fun known => by simpa using (known _ checking).1

end Checking

end ScriptShell
