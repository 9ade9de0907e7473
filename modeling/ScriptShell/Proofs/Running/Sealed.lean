import ScriptShell.Proofs.Running.Traps
import ScriptShell.Proofs.Termination.Calls

/-! Modules that have been come to. Where the state of a module tells that it was initialised, or that it is
being initialised, a call leaves what the module holds as it is, and its initialiser has no part in it: a call
does the same whatever that is replaced by. The state is a cell like others, so this asks that no member of
the module is named like it. -/
namespace ScriptShell

/-- Gives a procedure another body if it is the initialiser of a module. -/
def Procedure.reinitialise (owner : String) (body : Code) : Procedure → Procedure
  | .ensure own frame code => .ensure own frame (if own = owner then body else code)
  | other => other

/-- Gives the initialiser of a module another body. -/
def Artifact.reinitialise (owner : String) (body : Code) (artifact : Artifact) : Artifact :=
  { artifact with
    procedures := artifact.procedures.map fun entry => (entry.1, entry.2.reinitialise owner body) }

/-- Gives the initialiser of a module of loaded code another body. -/
def Image.reinitialise (images : Array Image) (key : CellKey) (body : Code) : Array Image :=
  images.modify key.image fun image => { image with artifact := image.artifact.reinitialise key.symbol body }

/-- The cells that a procedure writes: those that its code writes, and the state of the module that it
initialises. -/
def Procedure.cells : Procedure → List String
  | .ensure owner _ body => stateSymbol owner :: body.writes
  | procedure => procedure.body.writes

/-- No procedure but the initialiser of the module writes the cell. -/
def Artifact.Owns (artifact : Artifact) (owner symbol : String) : Prop :=
  ∀ entry ∈ artifact.procedures, symbol ∈ entry.2.cells → ∃ frame body, entry.2 = .ensure owner frame body

/-- The state of the module is its own. -/
def Artifact.Tells (artifact : Artifact) (owner : String) : Prop := artifact.Owns owner (stateSymbol owner)

theorem Procedure.writes_cells (procedure : Procedure) : procedure.body.writes ⊆ procedure.cells := by
  cases procedure with
  | ensure owner frame body => exact List.subset_cons_self _ _
  | function _ _ _ | method _ _ _ | construct _ _ _ _ _ => exact List.Subset.refl _

namespace Machine

/-- The cells that a module owns stay as they are. -/
def Holds (key : CellKey) (owned : String → Prop) (before after : Machine) : Prop :=
  ∀ symbol, owned symbol →
    after.cells.lookup ⟨key.image, symbol⟩ = before.cells.lookup ⟨key.image, symbol⟩

/-- Where a module has been come to, two runs do the same, and leave what it owns, if its state belongs to
that. -/
def Sealed (key : CellKey) (owned : String → Prop) (x y : Run α) : Prop :=
  owned (stateSymbol key.symbol) → ∀ m : Machine, m.moduleState key ≠ ModuleState.uninitialised →
    x m = y m ∧ Holds key owned m (left (x m))

variable {key : CellKey} {owned : String → Prop} {x y : Run α}

theorem Holds.trans {m₁ m₂ m₃ : Machine} (first : Holds key owned m₁ m₂) (second : Holds key owned m₂ m₃) :
    Holds key owned m₁ m₃ :=
  fun symbol own => (second symbol own).trans (first symbol own)

theorem Holds.of_same {m m' : Machine} (cells : m'.cells = m.cells) : Holds key owned m m' :=
  fun _ _ => by rw [cells]

/-- A module whose state is its own stays where it is. -/
theorem Holds.moduleState {m m' : Machine} (state : owned (stateSymbol key.symbol)) (holds : Holds key owned m m') :
    m'.moduleState key = m.moduleState key :=
  moduleState_of_lookup (holds _ state)

/-- A cell of others may be written. -/
theorem Holds.of_write {m m' : Machine} {other : CellKey} {value : Value}
    (foreign : key.image = other.image → ¬ owned other.symbol) (cells : m'.cells = bindKey other value m.cells) :
    Holds key owned m m' := by
  intro symbol own
  rw [cells, lookup_bindKey, if_neg]
  rintro rfl
  exact foreign rfl own

theorem sealed_tame (tame : Tame x) : Sealed key owned x x := by
  intro _ m _
  refine ⟨rfl, ?_⟩
  cases result : x m with
  | ok value m' => exact .of_same (tame.ok result).cells
  | error fault m' => exact .of_same (tame.error result).1.cells

theorem sealed_modify {f : Machine → Machine} (cells : ∀ m, (f m).cells = m.cells) :
    Sealed key owned (modify f : Run Unit) (modify f) :=
  fun _ m _ => ⟨rfl, .of_same (cells m)⟩

theorem sealed_writeCell {other : CellKey} (foreign : key.image = other.image → ¬ owned other.symbol)
    (value : Value) : Sealed key owned (writeCell other value) (writeCell other value) :=
  fun _ _ _ => ⟨rfl, .of_write foreign rfl⟩

theorem Sealed.bind {f g : α → Run β} (first : Sealed key owned x y)
    (rest : ∀ value, Sealed key owned (f value) (g value)) : Sealed key owned (x >>= f) (y >>= g) := by
  intro state m known
  obtain ⟨same, holds⟩ := first state m known
  rw [run_bind, run_bind, ← same]
  cases result : x m with
  | error fault after =>
    rw [result] at holds
    exact ⟨rfl, holds⟩
  | ok value after =>
    rw [result] at holds
    obtain ⟨same', holds'⟩ := rest value state after (holds.moduleState state ▸ known)
    exact ⟨same', holds.trans holds'⟩

theorem sealed_congruence (key : CellKey) (owned : String → Prop) : Congruence fun _ => Sealed key owned :=
  ⟨sealed_tame, Sealed.bind⟩

/-- Any module may be initialised. For the one that has been come to, this does nothing, whatever its
initialiser is. -/
theorem sealed_initialise {other : CellKey} {body body' : Run Value}
    (foreign : key ≠ other → key.image = other.image → ¬ owned (stateSymbol other.symbol))
    (run : key ≠ other → Sealed key owned body body') :
    Sealed key owned (initialise other body) (initialise other body') := by
  intro state m known
  rw [run_initialise, run_initialise]
  by_cases fresh : m.moduleState other = ModuleState.uninitialised
  · have apart : key ≠ other := by
      rintro rfl
      exact known fresh
    have foreign : key.image = other.state.image → ¬ owned other.state.symbol := foreign apart
    rw [if_pos fresh, if_pos fresh]
    have opened : Holds key owned m (m.entered other) := .of_write foreign rfl
    obtain ⟨same, holds⟩ := run apart state (m.entered other) (opened.moduleState state ▸ known)
    rw [← same]
    cases result : body (m.entered other) with
    | ok value after =>
      rw [result] at holds
      exact ⟨rfl, (opened.trans holds).trans (.of_write foreign rfl)⟩
    | error fault after =>
      rw [result] at holds
      exact ⟨rfl, (opened.trans holds).trans (.of_write foreign rfl)⟩
  · rw [if_neg fresh, if_neg fresh]
    exact ⟨rfl, .of_same rfl⟩

theorem sealed_enter (frame : Option String) : Sealed key owned (enter frame) (enter frame) := by
  intro _ m _
  refine ⟨rfl, ?_⟩
  rw [run_enter]
  split
  · exact .of_same rfl
  · split <;> exact .of_same rfl

theorem sealed_outOfRoom : Sealed key owned (outOfRoom : Run α) outOfRoom := by
  have marked : Sealed key owned (goAstray .stack) (goAstray .stack) := sealed_modify fun _ => rfl
  exact marked.bind fun _ => sealed_tame (tame_raise (by decide) _)

theorem sealed_callPrimitive (primitive : Primitive) (args : List Value) :
    Sealed key owned (callPrimitive primitive args) (callPrimitive primitive args) := by
  cases primitive with
  | enter =>
    refine (sealed_tame (tame_needArgs _ _)).bind fun _ => (sealed_tame tame_get).bind fun m => ?_
    exact (sealed_enter _).bind fun _ => sealed_tame (tame_pure _)
  | leave =>
    refine (sealed_tame (tame_needArgs _ _)).bind fun _ => (sealed_tame tame_get).bind fun m => ?_
    refine Sealed.bind ?_ fun _ => sealed_tame (tame_pure _)
    exact sealed_modify fun _ => rfl
  | _ => exact sealed_tame (tame_callPrimitive (by decide) args)

variable {call other : Caller}

theorem sealed_framed (calls : ∀ symbol args, Sealed key owned (call symbol args) (other symbol args))
    (frame : String) {body body' : Run Value} (run : Sealed key owned body body') :
    Sealed key owned (framed call frame body) (framed other frame body') :=
  (calls _ _).bind fun _ => run.bind fun _ => (calls _ _).bind fun _ => sealed_tame (tame_pure _)

/-- A procedure, with the initialiser of the module replaced by another one. -/
theorem sealed_callProcedure {index : Nat} {procedure procedure' : Procedure}
    (calls : ∀ symbol args, Sealed key owned (call symbol args) (other symbol args)) (initialises : Bool)
    (args : List Value)
    (replaced : procedure' = procedure ∨
      key.image = index ∧ ∃ body, procedure' = procedure.reinitialise key.symbol body)
    (writes : ∀ symbol ∈ procedure.cells, key.image = index → owned symbol →
      ∃ frame body, procedure = .ensure key.symbol frame body) :
    Sealed key owned (callProcedure call initialises index procedure args)
      (callProcedure other initialises index procedure' args) := by
  have body : ∀ activation : Activation, activation.image = index →
      (∀ frame code, procedure = .ensure key.symbol frame code → key.image ≠ index) →
      Sealed key owned (eval call activation procedure.body) (eval other activation procedure.body) := by
    rintro activation rfl foreign
    refine (sealed_congruence key owned).eval _ (fun symbol _ args => calls symbol args) ?_
    intro symbol listed value
    refine sealed_writeCell (fun same own => ?_) value
    obtain ⟨frame, code, ensures⟩ := writes symbol (procedure.writes_cells listed) same own
    exact foreign frame code ensures same
  cases procedure with
  | function frame params code =>
    obtain rfl : procedure' = .function frame params code := replaced.elim id fun ⟨_, _, same⟩ => same
    cases frame with
    | none => exact body _ rfl (by rintro _ _ ⟨⟩)
    | some frame => exact sealed_framed calls frame (body _ rfl (by rintro _ _ ⟨⟩))
  | method frame params code =>
    obtain rfl : procedure' = .method frame params code := replaced.elim id fun ⟨_, _, same⟩ => same
    exact sealed_framed calls frame (body _ rfl (by rintro _ _ ⟨⟩))
  | construct frame className slots fields code =>
    obtain rfl : procedure' = .construct frame className slots fields code :=
      replaced.elim id fun ⟨_, _, same⟩ => same
    refine sealed_framed calls frame ?_
    refine (calls _ _).bind fun object => (sealed_tame (tame_fillSlots _ _ _)).bind fun _ => ?_
    exact (body _ rfl (by rintro _ _ ⟨⟩)).bind fun _ => sealed_tame (tame_pure _)
  | ensure owner frame code =>
    obtain ⟨code', rfl, own⟩ : ∃ code', procedure' = .ensure owner frame code' ∧
        (key ≠ ⟨index, owner⟩ → code' = code) := by
      obtain rfl | ⟨rfl, body, rfl⟩ := replaced
      · exact ⟨code, rfl, fun _ => rfl⟩
      · refine ⟨_, rfl, fun apart => if_neg ?_⟩
        rintro rfl
        exact apart rfl
    cases initialises with
    | false => exact sealed_tame (tame_pure _)
    | true =>
      refine Sealed.bind ?_ fun _ => sealed_tame (tame_pure _)
      refine sealed_initialise (fun apart same owned => ?_) fun apart => ?_
      · obtain ⟨_, _, ensures⟩ := writes _ List.mem_cons_self same owned
        cases ensures
        exact apart (congrArg (CellKey.mk · key.symbol) same)
      obtain rfl := own apart
      refine sealed_framed calls frame (body _ rfl ?_)
      rintro _ _ ⟨⟩ rfl
      exact apart rfl

end Machine

namespace Image

variable {images : Array Image} {key : CellKey} {body : Code}

/-- The module of a key owns a cell of its image. -/
def Owned (images : Array Image) (key : CellKey) (symbol : String) : Prop :=
  ∀ image, images[key.image]? = some image → image.artifact.Owns key.symbol symbol

theorem lookup_reinitialise (procedures : List (String × Procedure)) (owner symbol : String) (body : Code) :
    (procedures.map fun entry => (entry.1, entry.2.reinitialise owner body)).lookup symbol =
      (procedures.lookup symbol).map (·.reinitialise owner body) := by
  induction procedures with
  | nil => rfl
  | cons entry rest ih =>
    rw [List.map_cons, List.lookup_cons, List.lookup_cons, ih]
    cases symbol == entry.1 <;> rfl

theorem getElem?_reinitialise (index : Nat) :
    (reinitialise images key body)[index]? = (images[index]?).map fun image =>
      if key.image = index then { image with artifact := image.artifact.reinitialise key.symbol body }
      else image := by
  unfold reinitialise
  rw [Array.getElem?_modify]
  split
  · rfl
  · simp

theorem target?_reinitialise (image : Image) (owner symbol : String) (index : Nat) :
    ({ image with artifact := image.artifact.reinitialise owner body } : Image).target? index symbol =
      image.target? index symbol := by
  unfold target? Artifact.reinitialise
  dsimp only
  rw [lookup_reinitialise, Option.isSome_map]

end Image

namespace Machine

/-- Where a module has been come to, a call does the same whatever its initialiser is replaced by, and leaves
the cells as they are that only the initialiser writes, its state among them. -/
theorem sealed_callTarget (images : Array Image) (key : CellKey) (body : Code) (fuel : Nat) (target : Target)
    (args : List Value) : Sealed key (Image.Owned images key) (callTarget images fuel target args)
      (callTarget (Image.reinitialise images key body) fuel target args) := by
  induction fuel generalizing target args with
  | zero => exact sealed_outOfRoom
  | succ fuel ih =>
    unfold callTarget
    cases target with
    | primitive own => exact sealed_callPrimitive own args
    | foreign function => exact sealed_tame (tame_withWords args function)
    | procedure self symbol =>
      dsimp only
      rw [Image.getElem?_reinitialise]
      cases loaded : images[self]? with
      | none => exact sealed_tame (tame_pure _)
      | some image =>
        rw [Option.map_some]
        dsimp only
        by_cases mine : key.image = self
        · simp only [if_pos mine, Image.target?_reinitialise]
          rw [show (image.artifact.reinitialise key.symbol body).procedures.lookup symbol =
            (image.artifact.procedures.lookup symbol).map (·.reinitialise key.symbol body) from
            Image.lookup_reinitialise _ _ _ _]
          cases found : image.artifact.procedures.lookup symbol with
          | none => exact sealed_tame (tame_pure _)
          | some procedure =>
            rw [Option.map_some]
            dsimp only
            refine sealed_callProcedure (fun symbol args => ?_) _ _ (.inr ⟨mine, body, rfl⟩) ?_
            · cases image.target? self symbol with
              | none => exact sealed_tame (tame_pure _)
              | some target => exact ih target args
            · intro own writes _ owned
              exact owned image (mine ▸ loaded) _ (mem_of_lookup found) writes
        · simp only [if_neg mine]
          cases image.artifact.procedures.lookup symbol with
          | none => exact sealed_tame (tame_pure _)
          | some procedure =>
            refine sealed_callProcedure (fun symbol args => ?_) _ _ (.inl rfl) fun _ _ same => absurd same mine
            cases image.target? self symbol with
            | none => exact sealed_tame (tame_pure _)
            | some target => exact ih target args

end Machine

end ScriptShell
