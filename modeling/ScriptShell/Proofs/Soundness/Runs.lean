import ScriptShell.Proofs.Soundness.Values
import ScriptShell.Proofs.Soundness.Code
import Mathlib.Data.List.Forall2

/-! Runs keep types. A run of typed code ends in a fault or gives a value of its type, and either way every
cell holds a value of its type behind it, so that this is an invariant of the machine. -/
namespace ScriptShell

/-- Every cell of a module holds a value of its type, be it initialised or not. -/
def Machine.CellsTyped (S : Symbols) (m : Machine) : Prop :=
  ∀ key type, (key.symbol, type) ∈ S.cells → ((m.cells.lookup key).getD .zero).HasType m type

/-- A run keeps the cells typed, and if it does not end in a fault, it gives what `holds` asks for. -/
def Machine.Yields (S : Symbols) (holds : Machine → α → Prop) (run : Run α) (m : Machine) : Prop :=
  match run m with
  | .ok value m' => m.Grows m' ∧ m'.CellsTyped S ∧ holds m' value
  | .error _ m' => m.Grows m' ∧ m'.CellsTyped S

/-- Values have types, one by one. -/
abbrev Value.HaveTypes (m : Machine) (types : List Ty) (values : List Value) : Prop :=
  List.Forall₂ (fun value type => value.HasType m type) values types

namespace Machine

variable {S : Symbols} {m m' : Machine} {holds : Machine → α → Prop} {next : Machine → β → Prop}

theorem CellsTyped.of_grows (cells : m.CellsTyped S) (grows : m.Grows m') (same : m'.cells = m.cells) :
    m'.CellsTyped S := by
  intro key type listed
  rw [same]
  exact (cells key type listed).mono grows

theorem HaveTypes.mono (typed : Value.HaveTypes m types values) (grows : m.Grows m') :
    Value.HaveTypes m' types values :=
  typed.imp fun _ _ one => one.mono grows

theorem yields_pure (cells : m.CellsTyped S) (fits : holds m value) :
    Yields S holds (Pure.pure value) m :=
  ⟨.refl m, cells, fits⟩

theorem Yields.grow (grows : m.Grows m') (yields : Yields S holds run m')
    (same : run m = run m') : Yields S holds run m := by
  unfold Yields at yields ⊢
  rw [same]
  cases result : run m' with
  | ok value after =>
    simp only [result] at yields ⊢
    exact ⟨grows.trans yields.1, yields.2⟩
  | error fault after =>
    simp only [result] at yields ⊢
    exact ⟨grows.trans yields.1, yields.2⟩

theorem Yields.imp (yields : Yields S holds run m) {weaker : Machine → α → Prop}
    (weaken : ∀ m' value, m.Grows m' → holds m' value → weaker m' value) :
    Yields S weaker run m := by
  unfold Yields at yields ⊢
  cases result : run m with
  | ok value after =>
    simp only [result] at yields ⊢
    exact ⟨yields.1, yields.2.1, weaken after value yields.1 yields.2.2⟩
  | error fault after =>
    simp only [result] at yields ⊢
    exact yields

theorem Yields.bind {run : Run α} {f : α → Run β} (first : Yields S holds run m)
    (rest : ∀ value m', m.Grows m' → m'.CellsTyped S → holds m' value → Yields S next (f value) m') :
    Yields S next (run >>= f) m := by
  unfold Yields at first
  unfold Yields
  rw [run_bind]
  cases result : run m with
  | error fault after =>
    simp only [result] at first ⊢
    exact first
  | ok value after =>
    simp only [result] at first ⊢
    have later := rest value after first.1 first.2.1 first.2.2
    unfold Yields at later
    cases second : f value after with
    | ok other last =>
      simp only [second] at later ⊢
      exact ⟨first.1.trans later.1, later.2⟩
    | error fault last =>
      simp only [second] at later ⊢
      exact ⟨first.1.trans later.1, later.2⟩

theorem Yields.tryCatch {run : Run α} {handle : Fault → Run α} (first : Yields S holds run m)
    (rest : ∀ fault m', m.Grows m' → m'.CellsTyped S → Yields S holds (handle fault) m') :
    Yields S holds (tryCatch run handle) m := by
  unfold Yields at first
  unfold Yields
  rw [run_tryCatch]
  cases result : run m with
  | ok value after =>
    simp only [result] at first ⊢
    exact first
  | error fault after =>
    simp only [result] at first ⊢
    have later := rest fault after first.1 first.2
    unfold Yields at later
    cases second : handle fault after with
    | ok other last =>
      simp only [second] at later ⊢
      exact ⟨first.1.trans later.1, later.2⟩
    | error fault last =>
      simp only [second] at later ⊢
      exact ⟨first.1.trans later.1, later.2⟩

theorem yields_get (cells : m.CellsTyped S) : Yields S (fun m' value => value = m' ∧ m' = m) get m :=
  ⟨.refl m, cells, rfl, rfl⟩

/-- A change of the machine that leaves texts, objects and cells alone. -/
theorem yields_modify (cells : m.CellsTyped S) {f : Machine → Machine}
    (stored : (f m).stored = m.stored) (objects : (f m).objects = m.objects)
    (same : (f m).cells = m.cells) : Yields S (fun _ _ => True) (modify f) m := by
  have grows : m.Grows (f m) := .of_eq stored objects
  exact ⟨grows, cells.of_grows grows same, trivial⟩

theorem yields_modifyContext (cells : m.CellsTyped S) (f : Context → Context) :
    Yields S (fun _ _ => True) (modifyContext f) m :=
  yields_modify cells rfl rfl rfl

theorem yields_stop (cells : m.CellsTyped S) : Yields S holds (stop : Run α) m := ⟨.refl m, cells⟩

theorem yields_raise (cells : m.CellsTyped S) : Yields S holds (raise kind message) m :=
  (yields_modifyContext cells _).bind fun _ _ _ cells _ => yields_stop cells

theorem yields_goAstray (cells : m.CellsTyped S) (stray : Stray) :
    Yields S (fun _ _ => True) (goAstray stray) m :=
  yields_modify cells rfl rfl rfl

theorem yields_outOfRoom (cells : m.CellsTyped S) : Yields S holds (outOfRoom : Run α) m :=
  (yields_goAstray cells _).bind fun _ _ _ cells _ => yields_raise cells

theorem yields_needText (cells : m.CellsTyped S) (value : Value) :
    Yields S (fun _ _ => True) (needText value) m := by
  unfold needText
  split
  · exact yields_pure cells trivial
  · exact yields_goAstray cells _

theorem yields_needArgs (cells : m.CellsTyped S) (primitive : Primitive) (args : List Value) :
    Yields S (fun _ _ => True) (needArgs primitive args) m := by
  unfold needArgs
  split
  · exact yields_pure cells trivial
  · exact yields_goAstray cells _

theorem yields_textAddress (cells : m.CellsTyped S) (ref : TextRef) :
    Yields S (fun _ _ => True) (textAddress ref) m := by
  unfold Machine.textAddress
  refine (yields_get cells).bind fun machine m' _ cells same => ?_
  obtain ⟨rfl, rfl⟩ := same
  dsimp only
  split
  · have grows : machine.Grows { machine with stored := machine.stored.push (ref.origin, ref.content) } :=
      ⟨by simp, rfl⟩
    exact ⟨grows, cells.of_grows grows rfl, trivial⟩
  · exact ⟨.refl _, cells, trivial⟩

theorem yields_address (cells : m.CellsTyped S) (value : Value) :
    Yields S (fun _ _ => True) (address value) m := by
  cases value with
  | word word => exact yields_pure cells trivial
  | text ref => exact yields_textAddress cells ref
  | object ref => exact yields_pure cells trivial

theorem yields_valueAt (cells : m.CellsTyped S) (word : Int64) :
    Yields S (fun m' value => value.HasType m' .int) (do return (← get).valueAt word) m := by
  refine (yields_get cells).bind fun machine m' _ cells same => ?_
  obtain ⟨rfl, rfl⟩ := same
  exact yields_pure cells (Value.hasType_valueAt machine word)

/-- Operations give numbers. -/
theorem yields_operate (cells : m.CellsTyped S) (op : CodeOp) (left right : Value) :
    Yields S (fun m' value => value.HasType m' .int) (operate op left right) m := by
  unfold Machine.operate
  split
  · exact yields_pure cells (Value.hasType_word m _)
  · refine (yields_address cells left).bind fun one m' _ cells _ => ?_
    refine (yields_address cells right).bind fun two m' _ cells _ => ?_
    exact yields_valueAt cells _

theorem yields_makeText (cells : m.CellsTyped S) (text : String) :
    Yields S (fun m' value => value.HasType m' .str) (makeText text) m := by
  have grows : m.Grows { m with
      textsMade := m.textsMade + 1
      context := { m.context with arena := m.context.arena + 1 } } := .of_eq rfl rfl
  exact ⟨grows, cells.of_grows grows rfl, Value.hasType_text _ _⟩

theorem yields_enter (cells : m.CellsTyped S) (frame : Option String) :
    Yields S (fun _ _ => True) (enter frame) m := by
  have calm : m.Grows { m with interrupt := false } := .of_eq rfl rfl
  unfold Machine.enter
  refine (yields_get cells).bind fun machine m' _ cells same => ?_
  obtain ⟨rfl, rfl⟩ := same
  dsimp only
  split
  · have halted : Yields S (fun _ (_ : Unit) => True) (raise .interrupted "interrupted") _ :=
      yields_raise (cells.of_grows calm rfl)
    exact halted.grow calm rfl
  · split
    · exact yields_raise cells
    · exact yields_modifyContext cells _

theorem yields_readSlot (cells : m.CellsTyped S) (object : Value) (slot : Nat) :
    Yields S (fun _ _ => True) (readSlot object slot) m := by
  have checked : Yields S (fun _ _ => True) (needSlot object slot) m := by
    refine (yields_get cells).bind fun machine m' _ cells _ => ?_
    split
    · exact yields_pure cells trivial
    · exact yields_goAstray cells _
  refine checked.bind fun _ m' _ cells _ => ?_
  cases object with
  | word _ | text _ => exact yields_pure cells trivial
  | object ref => exact (yields_get cells).bind fun _ _ _ cells _ => yields_pure cells trivial

theorem yields_showObject (cells : m.CellsTyped S) (object : Value) :
    Yields S (fun m' value => value.HasType m' .str) (showObject object) m := by
  unfold showObject
  split
  · refine (yields_readSlot cells _ 0).bind fun className m' _ cells _ => ?_
    exact (yields_needText cells className).bind fun _ _ _ cells _ => yields_makeText cells _
  · split
    · exact yields_pure cells (Value.hasType_text _ _)
    · exact (yields_goAstray cells _).bind fun _ _ _ cells _ => yields_pure cells (Value.hasType_text _ _)

theorem yields_divide (cells : m.CellsTyped S) (left right : Int64) :
    Yields S (fun _ _ => True) (divide left right) m := by
  unfold Machine.divide
  split
  · exact yields_raise cells
  · split <;> exact yields_pure cells trivial

theorem yields_remainder (cells : m.CellsTyped S) (left right : Int64) :
    Yields S (fun _ _ => True) (remainder left right) m := by
  unfold Machine.remainder
  split
  · exact yields_raise cells
  · split <;> exact yields_pure cells trivial

/-- A primitive function gives a value of the type that it may be said to give. -/
theorem yields_callPrimitive (cells : m.CellsTyped S) {primitive : Primitive}
    (accepts : primitive.Accepts signature) (args : List Value) :
    Yields S (fun m' value => value.HasType m' signature.result) (callPrimitive primitive args) m := by
  refine (yields_needArgs cells primitive args).bind fun _ m' _ cells _ => ?_
  refine (yields_get cells).bind fun machine m' _ cells same => ?_
  obtain ⟨rfl, rfl⟩ := same
  cases primitive with
  | initModule | alloc => exact accepts.elim
  | enter =>
    obtain rfl := accepts
    exact (yields_enter cells _).bind fun _ m' _ cells _ => yields_pure cells rfl
  | leave =>
    obtain rfl := accepts
    exact (yields_modify cells rfl rfl rfl).bind fun _ m' _ cells _ => yields_pure cells rfl
  | println =>
    obtain rfl := accepts
    refine (yields_needText cells _).bind fun _ m' _ cells _ => ?_
    have printed : Yields S (fun _ _ => True) (printLine (machine.settle (args.headD .zero)).toText) m' := by
      apply yields_modify cells <;> (split <;> rfl)
    exact printed.bind fun _ m' _ cells _ => yields_pure cells rfl
  | concat =>
    obtain rfl := accepts
    refine (yields_needText cells _).bind fun _ m' _ cells _ => ?_
    exact (yields_needText cells _).bind fun _ m' _ cells _ => yields_makeText cells _
  | strEq =>
    obtain rfl := accepts
    refine (yields_needText cells _).bind fun _ m' _ cells _ => ?_
    exact (yields_needText cells _).bind fun _ m' _ cells _ => yields_pure cells (Value.hasType_ofBool _ _)
  | intToStr | showInt =>
    obtain rfl := accepts
    exact (yields_address cells _).bind fun _ m' _ cells _ => yields_makeText cells _
  | showStr =>
    obtain rfl := accepts
    exact (yields_needText cells _).bind fun _ m' _ cells _ => yields_makeText cells _
  | showObj =>
    obtain ⟨cls, rfl⟩ := accepts
    exact yields_showObject cells _
  | div =>
    obtain rfl := accepts
    refine (yields_address cells _).bind fun _ m' _ cells _ => ?_
    refine (yields_address cells _).bind fun _ m' _ cells _ => ?_
    exact (yields_divide cells _ _).bind fun _ m' _ cells _ =>
      yields_pure cells (Value.hasType_word _ _)
  | mod =>
    obtain rfl := accepts
    refine (yields_address cells _).bind fun _ m' _ cells _ => ?_
    refine (yields_address cells _).bind fun _ m' _ cells _ => ?_
    exact (yields_remainder cells _ _).bind fun _ m' _ cells _ =>
      yields_pure cells (Value.hasType_word _ _)
  | exit => exact yields_raise cells
  | fail => exact (yields_needText cells _).bind fun _ m' _ cells _ => yields_raise cells

end Machine

end ScriptShell
