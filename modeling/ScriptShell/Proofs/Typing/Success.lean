import ScriptShell.Typing.Unit

/-! Successful steps of a check, taken apart. Every lemma reads off what a step that gave a result
has done to the state; a step that refuses the unit gives none. -/
namespace ScriptShell.Check

variable {σ α β : Type} {s s' : Checking σ}

theorem bind_ok {x : Check σ α} {f : α → Check σ β} {b : β} :
    (x >>= f) s = .ok b s' ↔ ∃ a t, x s = .ok a t ∧ f a t = .ok b s' := by
  show EStateM.bind x f s = _ ↔ _
  unfold EStateM.bind
  cases ran : x s with
  | ok a t =>
    constructor
    · intro following
      exact ⟨a, t, rfl, following⟩
    · rintro ⟨a', t', same, following⟩
      cases same
      exact following
  | error e t => simp

/-- A step that gives a result goes on with it. -/
theorem bind_of_ok {x : Check σ α} {f : α → Check σ β} {a : α} (done : x s = .ok a s') :
    (x >>= f) s = f a s' := by
  show EStateM.bind x f s = _
  unfold EStateM.bind
  rw [done]

/-- A step that refuses the unit ends it. -/
theorem bind_of_error {x : Check σ α} {f : α → Check σ β} {e : TypeError} (refused : x s = .error e s') :
    (x >>= f) s = .error e s' := by
  show EStateM.bind x f s = _
  unfold EStateM.bind
  rw [refused]

theorem pure_ok {a b : α} : (pure a : Check σ α) s = .ok b s' ↔ a = b ∧ s = s' := by
  show EStateM.Result.ok a s = _ ↔ _
  simp

theorem map_ok {x : Check σ α} {f : α → β} {b : β} :
    (f <$> x) s = .ok b s' ↔ ∃ a, x s = .ok a s' ∧ f a = b := by
  rw [← bind_pure_comp, bind_ok]
  constructor
  · rintro ⟨a, t, ran, done⟩
    obtain ⟨rfl, rfl⟩ := pure_ok.mp done
    exact ⟨a, ran, rfl⟩
  · rintro ⟨a, ran, rfl⟩
    exact ⟨a, s', ran, pure_ok.mpr ⟨rfl, rfl⟩⟩

theorem fail_ok {span : Span} {cause : TypeCause} {a : α} :
    (fail span cause : Check σ α) s = .ok a s' ↔ False := by
  show EStateM.Result.error _ s = _ ↔ _
  simp

theorem get_ok {t : Checking σ} : (get : Check σ (Checking σ)) s = .ok t s' ↔ s = t ∧ s = s' := by
  show EStateM.Result.ok s s = _ ↔ _
  simp

theorem set_ok {t : Checking σ} {u : PUnit} : (set t : Check σ PUnit) s = .ok u s' ↔ t = s' := by
  show EStateM.Result.ok PUnit.unit t = _ ↔ _
  simp

theorem modify_ok {f : Checking σ → Checking σ} {u : PUnit} :
    (modify f : Check σ PUnit) s = .ok u s' ↔ f s = s' := by
  show EStateM.Result.ok PUnit.unit (f s) = _ ↔ _
  simp

theorem symbols_ok {symbols : Symbols} :
    (Check.symbols : Check σ Symbols) s = .ok symbols s' ↔ s.symbols = symbols ∧ s = s' := by
  show EStateM.Result.ok _ s = _ ↔ _
  simp

theorem progress?_ok {key : MemberKey} {own : Option Progress} :
    (progress? key : Check σ (Option Progress)) s = .ok own s' ↔
      s.progress.lookup key = own ∧ s = s' := by
  show EStateM.Result.ok _ s = _ ↔ _
  simp

theorem setProgress_ok {key : MemberKey} {own : Progress} {u : Unit} :
    (setProgress key own : Check σ Unit) s = .ok u s' ↔
      { s with progress := s.progress.map fun entry =>
          if entry.1 = key then (key, own) else entry } = s' :=
  modify_ok

theorem modifyMember_ok {key : MemberKey} {f : MemberSymbol → MemberSymbol} {u : Unit} :
    (modifyMember key f : Check σ Unit) s = .ok u s' ↔
      { s with symbols := s.symbols.modifyMember key f } = s' :=
  modify_ok

theorem freshLocal_ok {id : LocalId} :
    (freshLocal : Check σ LocalId) s = .ok id s' ↔
      s.nextLocal = id ∧ { s with nextLocal := s.nextLocal + 1 } = s' := by
  show EStateM.Result.ok _ _ = _ ↔ _
  simp

/-- Behind a refusal under a condition, the condition is false. -/
theorem guard_ok {c : Prop} [Decidable c] {span : Span} {cause : TypeCause} {f : α → Check σ β}
    {step : Check σ β} {b : β} :
    (if c then (fail span cause : Check σ α) >>= f else step) s = .ok b s' ↔
      ¬ c ∧ step s = .ok b s' := by
  by_cases holds : c
  · simp [holds, bind_ok, fail_ok]
  · simp [holds]

/-- The same for a refusal that names a type. -/
theorem guardText_ok {c : Prop} [Decidable c] {span : Span} {cause : String → TypeCause} {type : Ty}
    {f : α → Check σ β} {step : Check σ β} {b : β} :
    (if c then Check.text type >>= fun text => (fail span (cause text) : Check σ α) >>= f
      else step) s = .ok b s' ↔ ¬ c ∧ step s = .ok b s' := by
  by_cases holds : c
  · simp [holds, bind_ok, -bind_pure_comp, fail_ok]
  · simp [holds]

/-- The same for a refusal that names two types. -/
theorem guardTexts_ok {c : Prop} [Decidable c] {span : Span} {cause : String → String → TypeCause}
    {first second : Ty} {f : α → Check σ β} {step : Check σ β} {b : β} :
    (if c then Check.text first >>= fun one => Check.text second >>= fun two =>
        (fail span (cause one two) : Check σ α) >>= f
      else step) s = .ok b s' ↔ ¬ c ∧ step s = .ok b s' := by
  by_cases holds : c
  · simp [holds, bind_ok, -bind_pure_comp, fail_ok]
  · simp [holds]

end ScriptShell.Check
