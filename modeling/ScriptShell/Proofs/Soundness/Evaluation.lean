import ScriptShell.Proofs.Soundness.Runs

/-! Evaluation keeps types. The induction is on the code, where calls are taken to keep to the signatures of
what they call; that they do is an induction on the number of calls inside one another. -/
namespace ScriptShell

theorem lookup_bindKey [DecidableEq κ] (entries : List (κ × α)) (key other : κ) (value : α) :
    (bindKey key value entries).lookup other =
      if other = key then some value else entries.lookup other := by
  have differs : ∀ {one two : κ}, one ≠ two → (one == two) = false := by simp
  induction entries with
  | nil =>
    by_cases same : other = key
    · simp [bindKey, same]
    · simp [bindKey, List.lookup_cons, same, differs same]
  | cons entry rest ih =>
    obtain ⟨first, old⟩ := entry
    by_cases mine : key = first
    · subst mine
      by_cases same : other = key
      · simp [bindKey, same]
      · simp [bindKey, List.lookup_cons, same, differs same]
    · by_cases same : other = first
      · subst same
        simp [bindKey, mine, Ne.symm mine]
      · simp [bindKey, mine, List.lookup_cons, differs same, ih]

namespace Machine

variable {S : Symbols} {m m' : Machine} {call : Caller} {activation : Activation}
  {locals : List (LocalId × Ty)}

/-- Calls keep to the signatures of what they call. -/
def Serves (S : Symbols) (call : Caller) : Prop :=
  ∀ symbol signature args m, S.Calls symbol signature → m.CellsTyped S →
    Value.HaveTypes m signature.params args →
    Yields S (fun m' value => value.HasType m' signature.result) (call symbol args) m

/-- The locals of a call hold values of their types. -/
def Activation.Typed (locals : List (LocalId × Ty)) (m : Machine) (activation : Activation) : Prop :=
  ∀ id type, locals.lookup id = some type →
    ((activation.locals.lookup id).getD .zero).HasType m type

theorem Activation.Typed.mono (typed : activation.Typed locals m) (grows : m.Grows m') :
    activation.Typed locals m' :=
  fun id type listed => (typed id type listed).mono grows

theorem Activation.Typed.bind {value : Value} (typed : activation.Typed locals m)
    (own : value.HasType m type) (id : LocalId) :
    Activation.Typed ((id, type) :: locals) m
      { activation with locals := (id, value) :: activation.locals } := by
  intro other found listed
  simp only [List.lookup_cons] at listed ⊢
  cases same : other == id with
  | true =>
    simp only [same, Option.some.injEq] at listed
    subst listed
    exact own
  | false =>
    simp only [same] at listed
    exact typed other found listed

/-- Cells of one name have one type, so that what is written to one has the type it is read at. -/
theorem yields_writeCell {value : Value} (coherent : S.Coherent) (cells : m.CellsTyped S)
    (listed : (key.symbol, type) ∈ S.cells) (typed : value.HasType m type) :
    Yields S (fun _ _ => True) (writeCell key value) m := by
  have grows : m.Grows { m with cells := bindKey key value m.cells } := .of_eq rfl rfl
  refine ⟨grows, ?_, trivial⟩
  intro other found present
  simp only [lookup_bindKey]
  split
  next same =>
    have agrees := coherent.cells _ listed _ present (congrArg CellKey.symbol same)
    dsimp only at agrees
    subst agrees
    exact typed.mono grows
  next => exact (cells other found present).mono grows

mutual

/-- Typed code ends in a fault or gives a value of its type. -/
theorem eval_sound (coherent : S.Coherent) (serves : Serves S call) :
    ∀ {code : Code} {locals : List (LocalId × Ty)} {type : Ty} {activation : Activation} {m : Machine},
      code.HasType S locals type → activation.Typed locals m → m.CellsTyped S →
      Yields S (fun m' value => value.HasType m' type) (eval call activation code) m
  | .word value, _, _, _, m, typed, _, cells => by
    refine yields_pure cells ?_
    obtain rfl | rfl := typed
    · exact Value.hasType_word m value
    · exact Value.hasType_zero m _
  | .text _ _, _, _, _, m, typed, _, cells => by
    obtain rfl := typed
    exact yields_pure cells (Value.hasType_text m _)
  | .bound id, _, _, _, _, typed, bound, cells => yields_pure cells (bound id _ typed)
  | .cell symbol, _, type, activation, m, typed, _, cells =>
    ⟨.refl m, cells, cells ⟨activation.image, symbol⟩ type typed⟩
  | .call symbol args, _, _, _, _, typed, bound, cells => by
    obtain ⟨params, called, operands⟩ := typed
    refine (evalAll_sound coherent serves operands bound cells).bind ?_
    exact fun values m' _ cells typed => serves symbol _ values m' called cells typed
  | .op op left right, _, _, _, _, typed, bound, cells => by
    obtain ⟨rfl, operand, -, -, one, two⟩ := typed
    refine (eval_sound coherent serves one bound cells).bind fun first m' grows cells _ => ?_
    refine (eval_sound coherent serves two (bound.mono grows) cells).bind fun second m' _ cells _ => ?_
    exact yields_operate cells op first second
  | .not operand, _, _, _, _, typed, bound, cells => by
    obtain ⟨rfl, inner⟩ := typed
    refine (eval_sound coherent serves inner bound cells).bind fun value m' _ cells _ => ?_
    exact yields_pure cells (Value.hasType_ofBool m' _)
  | .both left right, _, _, _, _, typed, bound, cells => by
    obtain ⟨rfl, one, two⟩ := typed
    refine (eval_sound coherent serves one bound cells).bind fun first m' grows cells _ => ?_
    split
    · refine (eval_sound coherent serves two (bound.mono grows) cells).bind fun second m' _ cells _ => ?_
      exact yields_pure cells (Value.hasType_ofBool m' _)
    · exact yields_pure cells (Value.hasType_zero m' _)
  | .either left right, _, _, _, _, typed, bound, cells => by
    obtain ⟨rfl, one, two⟩ := typed
    refine (eval_sound coherent serves one bound cells).bind fun first m' grows cells _ => ?_
    split
    · exact yields_pure cells (Value.hasType_ofBool m' _)
    · refine (eval_sound coherent serves two (bound.mono grows) cells).bind fun second m' _ cells _ => ?_
      exact yields_pure cells (Value.hasType_ofBool m' _)
  | .cond condition thenBranch elseBranch, _, _, _, _, typed, bound, cells => by
    obtain ⟨tested, one, two⟩ := typed
    refine (eval_sound coherent serves tested bound cells).bind fun first m' grows cells _ => ?_
    split
    · exact eval_sound coherent serves one (bound.mono grows) cells
    · exact eval_sound coherent serves two (bound.mono grows) cells
  | .block body, _, _, _, m, typed, bound, cells =>
    evalBody_sound coherent serves typed bound cells (Value.hasType_zero m .unit)
  | .self, _, _, _, _, typed, _, _ | .slot _ _, _, _, _, _, typed, _, _ => typed.elim

theorem evalAll_sound (coherent : S.Coherent) (serves : Serves S call) :
    ∀ {args : List Code} {locals : List (LocalId × Ty)} {types : List Ty} {activation : Activation}
      {m : Machine}, Code.HaveTypes S locals args types → activation.Typed locals m →
      m.CellsTyped S →
      Yields S (fun m' values => Value.HaveTypes m' types values) (evalAll call activation args) m
  | [], _, _, _, _, typed, _, cells => by
    obtain rfl := typed
    exact yields_pure cells .nil
  | _ :: _, _, _, _, _, typed, bound, cells => by
    obtain ⟨first, others, rfl, one, rest⟩ := typed
    refine (eval_sound coherent serves one bound cells).bind fun value m' grows cells own => ?_
    refine (evalAll_sound coherent serves rest (bound.mono grows) cells).bind ?_
    exact fun values m' more cells typed => yields_pure cells (.cons (own.mono more) typed)

theorem evalBody_sound (coherent : S.Coherent) (serves : Serves S call) :
    ∀ {steps : List CodeStep} {locals : List (LocalId × Ty)} {last type : Ty} {activation : Activation}
      {m : Machine} {value : Value}, CodeStep.HaveType S locals last steps type →
      activation.Typed locals m → m.CellsTyped S → value.HasType m last →
      Yields S (fun m' value => value.HasType m' type) (evalBody call activation value steps) m
  | [], _, _, _, _, _, _, typed, _, cells, own => by
    obtain rfl := typed
    exact yields_pure cells own
  | .run _ :: _, _, _, _, _, _, _, typed, bound, cells, _ => by
    obtain ⟨type, one, rest⟩ := typed
    refine (eval_sound coherent serves one bound cells).bind fun value m' grows cells own => ?_
    exact evalBody_sound coherent serves rest (bound.mono grows) cells own
  | .bind id _ :: _, _, _, _, _, _, _, typed, bound, cells, _ => by
    obtain ⟨type, one, rest⟩ := typed
    refine (eval_sound coherent serves one bound cells).bind fun value m' grows cells own => ?_
    exact evalBody_sound coherent serves rest ((bound.mono grows).bind own id) cells
      (Value.hasType_zero m' .unit)
  | .setCell symbol _ :: _, _, _, _, _, _, _, typed, bound, cells, _ => by
    obtain ⟨type, listed, one, rest⟩ := typed
    refine (eval_sound coherent serves one bound cells).bind fun value m' grows cells own => ?_
    refine (yields_writeCell coherent cells listed own).bind fun _ m' more cells _ => ?_
    exact evalBody_sound coherent serves rest ((bound.mono grows).mono more) cells
      (Value.hasType_zero m' .unit)
  | .setSlot _ _ :: _, _, _, _, _, _, _, typed, _, _, _ => typed.elim

end

end Machine

end ScriptShell
