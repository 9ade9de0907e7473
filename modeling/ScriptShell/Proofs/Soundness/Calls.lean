import ScriptShell.Proofs.Soundness.Evaluation

/-! Calls keep to signatures. What a symbol is bound to gives a value of the result type for arguments of
the parameter types, however deep calls stand inside one another. Modules are initialised on the way; a
module whose initialisation fails leaves cells of the right types, like one that was never used. -/
namespace ScriptShell

/-- A foreign function keeps to a signature: what it makes of values of the parameter types is a value
of the result type. -/
def Foreign.Fits (function : Foreign) (signature : Signature) : Prop :=
  ∀ (m m' : Machine) (args : List Value) (value : Value),
    Value.HaveTypes m signature.params args →
    Machine.withWords args function m = .ok value m' → value.HasType m' signature.result

/-- What symbols are bound to keeps to a signature. -/
def Target.Fits (S : Symbols) (images : Array Image) (signature : Signature) : Target → Prop
  | .procedure index symbol => ∀ image : Image, images[index]? = some image →
      ∀ procedure : Procedure, image.artifact.procedures.lookup symbol = some procedure →
        procedure.HasSignature S signature
  | .foreign function => Foreign.Fits function signature
  | .primitive own => own.Accepts signature

/-- All that loaded code calls keeps to the signatures it is called with. -/
def Image.AllFit (S : Symbols) (images : Array Image) : Prop :=
  ∀ (index : Nat) (image : Image), images[index]? = some image →
    ∀ (symbol : String) (target : Target), image.target? index symbol = some target →
      ∀ signature : Signature, S.Calls symbol signature → target.Fits S images signature

/-- The calls that loaded code makes. -/
def Image.caller (images : Array Image) (index fuel : Nat) (image : Image) : Machine.Caller :=
  fun symbol args =>
    match image.target? index symbol with
    | some target => Machine.callTarget images fuel target args
    | none => return .zero

namespace Machine

variable {S : Symbols} {m m' : Machine} {call : Caller}

theorem yields_setModule (coherent : S.Coherent) (cells : m.CellsTyped S) {key : CellKey}
    (listed : (stateSymbol key.symbol, .int) ∈ S.cells) (state : Int64) :
    Yields S (fun _ _ => True) (setModule key (.word state)) m :=
  yields_writeCell coherent cells listed (Value.hasType_word m state)

/-- The initialisation of a module whose body keeps the cells typed. -/
theorem yields_initialise {holds : Machine → Value → Prop} (coherent : S.Coherent) (key : CellKey)
    (listed : (stateSymbol key.symbol, .int) ∈ S.cells) {body : Run Value}
    (runs : ∀ m : Machine, m.CellsTyped S → Yields S holds body m) (cells : m.CellsTyped S) :
    Yields S (fun _ _ => True) (initialise key body) m := by
  unfold Machine.initialise
  refine (yields_get cells).bind fun machine m' _ cells same => ?_
  obtain ⟨rfl, rfl⟩ := same
  split
  · refine (yields_setModule coherent cells listed 1).bind fun _ m' _ cells _ => ?_
    refine (yields_modifyContext cells _).bind fun _ m' _ cells _ => ?_
    refine Yields.tryCatch ?_ fun fault m' _ cells => ?_
    · refine (runs _ cells).bind fun _ m' _ cells _ => ?_
      refine (yields_modifyContext cells _).bind fun _ m' _ cells _ => ?_
      exact yields_setModule coherent cells listed 2
    · refine (yields_setModule coherent cells listed 0).bind fun _ m' _ cells _ => ?_
      exact (yields_modifyContext cells _).bind fun _ m' _ cells _ => yields_stop cells
  · exact yields_pure cells trivial

theorem yields_framed (serves : Serves S call) (frame : String) {body : Run Value}
    (runs : ∀ m' : Machine, m.Grows m' → m'.CellsTyped S →
      Yields S (fun m' value => value.HasType m' type) body m') (cells : m.CellsTyped S) :
    Yields S (fun m' value => value.HasType m' type) (framed call frame body) m := by
  unfold Machine.framed
  have entered := serves Primitive.enter.symbol ⟨[.str], .unit⟩ [.ofText frame] m
    (.inr (.inr ⟨.enter, rfl, rfl⟩)) cells (.cons (Value.hasType_text m _) .nil)
  refine entered.bind fun _ m' grows cells _ => ?_
  refine (runs m' grows cells).bind fun value m' _ cells own => ?_
  have left := serves Primitive.leave.symbol ⟨[], .unit⟩ [] m'
    (.inr (.inr ⟨.leave, rfl, rfl⟩)) cells .nil
  refine left.bind fun _ m' grows cells _ => ?_
  exact yields_pure cells (own.mono grows)

/-- The arguments of a call are the values of its parameters. -/
theorem activation_typed {params : List LocalId} (args : Value.HaveTypes m types values)
    (count : params.length = types.length) :
    Activation.Typed (params.zip types) m { image, locals := params.zip values } := by
  induction args generalizing params with
  | nil =>
    intro id type listed
    simp at listed
  | @cons value type values types own rest ih =>
    cases params with
    | nil => simp at count
    | cons param params =>
      have others : Activation.Typed (params.zip types) m { image, locals := params.zip values } :=
        ih (by simpa using count)
      exact others.bind own param

theorem yields_callProcedure (coherent : S.Coherent) (serves : Serves S call)
    {procedure : Procedure} (typed : procedure.HasSignature S signature) (cells : m.CellsTyped S)
    (args : Value.HaveTypes m signature.params values) :
    Yields S (fun m' value => value.HasType m' signature.result)
      (callProcedure call initialises image procedure values) m := by
  cases procedure with
  | method _ _ _ | construct _ _ _ _ _ => exact typed.elim
  | function frame params body =>
    obtain ⟨-, count, typed⟩ := typed
    have bound : Activation.Typed (params.zip signature.params) m
        { image, locals := params.zip values } := activation_typed args count
    cases frame with
    | none => exact eval_sound coherent serves typed bound cells
    | some frame =>
      refine yields_framed serves frame (fun m' grows cells => ?_) cells
      exact eval_sound coherent serves typed (bound.mono grows) cells
  | ensure owner frame body =>
    obtain ⟨rfl, -, state, type, typed⟩ := typed
    have bound : ∀ m : Machine, Activation.Typed [] m { image } := by
      rintro m id type ⟨⟩
    have body : ∀ m : Machine, m.CellsTyped S →
        Yields S (fun m' value => value.HasType m' type)
          (framed call frame (eval call { image } body)) m := by
      intro m cells
      exact yields_framed serves frame
        (fun m' _ cells => eval_sound coherent serves typed (bound m') cells) cells
    unfold Machine.callProcedure
    cases initialises with
    | false => exact yields_pure cells rfl
    | true =>
      refine (yields_initialise coherent ⟨image, owner⟩ state body cells).bind fun _ m' _ cells _ => ?_
      exact yields_pure cells rfl

theorem yields_mapM_address (cells : m.CellsTyped S) (values : List Value) :
    Yields S (fun _ _ => True) (values.mapM address) m := by
  induction values generalizing m with
  | nil => exact yields_pure cells trivial
  | cons value rest ih =>
    rw [List.mapM_cons]
    refine (yields_address cells value).bind fun _ m' _ cells _ => ?_
    refine (ih cells).bind fun _ m' _ cells _ => ?_
    exact yields_pure cells trivial

theorem yields_withWords (cells : m.CellsTyped S) (values : List Value) (f : List Int64 → Int64) :
    Yields S (fun m' value => value.HasType m' .int) (withWords values f) m :=
  (yields_mapM_address cells values).bind fun _ _ _ cells _ => yields_valueAt cells _

theorem yields_foreign {function : Foreign} (fits : Foreign.Fits function signature)
    (cells : m.CellsTyped S) (args : Value.HaveTypes m signature.params values) :
    Yields S (fun m' value => value.HasType m' signature.result)
      (withWords values function) m := by
  have runs := yields_withWords cells values function
  unfold Yields at runs ⊢
  cases result : withWords values function m with
  | ok value after =>
    simp only [result] at runs ⊢
    exact ⟨runs.1, runs.2.1, fits m after values value args result⟩
  | error fault after =>
    simp only [result] at runs ⊢
    exact runs

variable {images : Array Image} {image : Image}

theorem serves_caller (fit : Image.AllFit S images) (loaded : images[index]? = some image)
    (each : ∀ {target : Target} {signature : Signature} {values : List Value} {m : Machine},
      target.Fits S images signature → m.CellsTyped S → Value.HaveTypes m signature.params values →
      Yields S (fun m' value => value.HasType m' signature.result)
        (callTarget images fuel target values) m) :
    Serves S (image.caller images index fuel) := by
  intro symbol signature values m called cells args
  unfold Image.caller
  cases bound : image.target? index symbol with
  | none => exact yields_pure cells (Value.hasType_zero m _)
  | some target => exact each (fit index image loaded symbol target bound signature called) cells args

/-- The induction is on the number of calls inside one another. -/
theorem callTarget_sound (coherent : S.Coherent) (fit : Image.AllFit S images) (fuel : Nat) :
    ∀ {target : Target} {signature : Signature} {values : List Value} {m : Machine},
      target.Fits S images signature → m.CellsTyped S → Value.HaveTypes m signature.params values →
      Yields S (fun m' value => value.HasType m' signature.result)
        (callTarget images fuel target values) m := by
  induction fuel with
  | zero =>
    intro target signature values m _ cells _
    exact yields_outOfRoom cells
  | succ fuel ih =>
    intro target signature values m fits cells args
    cases target with
    | primitive primitive => exact yields_callPrimitive cells fits values
    | foreign function => exact yields_foreign fits cells args
    | procedure index symbol =>
      unfold Machine.callTarget
      cases loaded : images[index]? with
      | none =>
        simp only [loaded]
        exact yields_pure cells (Value.hasType_zero m _)
      | some image =>
        simp only [loaded]
        cases found : image.artifact.procedures.lookup symbol with
        | none => exact yields_pure cells (Value.hasType_zero m _)
        | some procedure =>
          exact yields_callProcedure coherent (serves_caller fit loaded ih)
            (fits image loaded procedure found) cells args

end Machine

end ScriptShell
