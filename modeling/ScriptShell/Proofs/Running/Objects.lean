import ScriptShell.Proofs.Running.Sealed

/-! Objects while programs run. Objects are made and never removed, and an object keeps its number of slots.
What it holds changes only where code sets a slot of the object that it has at hand, or where a constructor
stores its arguments; so a run leaves a slot alone if no code that takes part in it sets it. -/
namespace ScriptShell

mutual

/-- The slots of the object at hand that code sets. -/
@[simp]
def Code.stores : Code → List Nat
  | .word _ | .text _ _ | .bound _ | .self | .cell _ => []
  | .slot object _ => object.stores
  | .call _ args => Code.storesAll args
  | .op _ left right | .both left right | .either left right => left.stores ++ right.stores
  | .not operand => operand.stores
  | .cond condition thenBranch elseBranch =>
    condition.stores ++ thenBranch.stores ++ elseBranch.stores
  | .block body => CodeStep.storesAll body

/-- The slots of the object at hand that a list of code sets. -/
@[simp]
def Code.storesAll : List Code → List Nat
  | [] => []
  | code :: rest => code.stores ++ Code.storesAll rest

/-- The slots of the object at hand that the steps of a block set. -/
@[simp]
def CodeStep.storesAll : List CodeStep → List Nat
  | [] => []
  | .run value :: rest | .bind _ value :: rest | .setCell _ value :: rest =>
    value.stores ++ CodeStep.storesAll rest
  | .setSlot slot value :: rest => slot :: (value.stores ++ CodeStep.storesAll rest)

end

/-- The slots that a procedure sets in the object at hand. -/
def Procedure.stores : Procedure → List Nat
  | .function _ _ body | .method _ _ body | .ensure _ _ body => body.stores
  | .construct _ _ _ fields body => fields ++ body.stores

/-- No code of an artifact sets the slot with the name of the class. -/
def Artifact.SparesNames (artifact : Artifact) : Prop :=
  ∀ entry ∈ artifact.procedures, ∀ slot ∈ entry.2.stores, slot ≠ 0

namespace Machine

/-- The objects that a procedure may have at hand: a method its first argument, a constructor what the call
for a new object gives, and other procedures none. -/
def Receives (call : Caller) (args : List Value) (object : Value) : Procedure → Prop
  | .method _ _ _ => object = args.headD .zero
  | .construct _ className slots _ _ => ∃ m m', call Primitive.alloc.symbol
      [.word (Int64.ofNat slots), .ofText className] m = .ok object m'
  | .function _ _ _ | .ensure _ _ _ => object = .zero

/-- Every object is still there with as many slots, and holds what it held but in slots that may be set. -/
def Spares (settable : Nat → Nat → Prop) (m m' : Machine) : Prop :=
  ∀ id slots, m.objects[id]? = some slots → ∃ later, m'.objects[id]? = some later ∧
    later.length = slots.length ∧ ∀ slot, ¬ settable id slot → later[slot]? = slots[slot]?

/-- A run sets no slots but those that may be set, whether it gives a value or raises a fault. -/
def Confined (settable : Nat → Nat → Prop) (x : Run α) : Prop := ∀ m, Spares settable m (left (x m))

variable {settable : Nat → Nat → Prop} {x : Run α} {m m' m'' : Machine}

theorem Spares.refl (m : Machine) : Spares settable m m :=
  fun _ slots found => ⟨slots, found, rfl, fun _ _ => rfl⟩

theorem Spares.trans (first : Spares settable m m') (second : Spares settable m' m'') :
    Spares settable m m'' := by
  intro id slots found
  obtain ⟨between, there, length, kept⟩ := first id slots found
  obtain ⟨later, last, lengthToo, keptToo⟩ := second id between there
  refine ⟨later, last, lengthToo.trans length, fun slot spared => ?_⟩
  exact (keptToo slot spared).trans (kept slot spared)

theorem Spares.of_objects (same : m'.objects = m.objects) : Spares settable m m' := by
  intro id slots found
  exact ⟨slots, same ▸ found, rfl, fun _ _ => rfl⟩

/-- What follows a run may rest on the value that the run gave. -/
theorem Confined.bind_result {f : α → Run β} (first : Confined settable x)
    (rest : ∀ m value after, x m = .ok value after → Confined settable (f value)) :
    Confined settable (x >>= f) := by
  intro m
  have start := first m
  rw [run_bind]
  cases result : x m with
  | error fault after =>
    rw [result] at start
    exact start
  | ok value after =>
    rw [result] at start
    exact start.trans (rest m value after result after)

theorem Confined.bind {f : α → Run β} (first : Confined settable x)
    (rest : ∀ value, Confined settable (f value)) : Confined settable (x >>= f) :=
  first.bind_result fun _ value _ _ => rest value

theorem Confined.mono {more : Nat → Nat → Prop} (confined : Confined settable x)
    (sub : ∀ id slot, settable id slot → more id slot) : Confined more x := by
  intro m id slots found
  obtain ⟨later, there, length, kept⟩ := confined m id slots found
  exact ⟨later, there, length, fun slot spared => kept slot fun may => spared (sub id slot may)⟩

theorem Confined.ok (confined : Confined settable x) (run : x m = .ok value m') : Spares settable m m' := by
  have spares := confined m
  rw [run] at spares
  exact spares

theorem confined_still (still : ∀ m, (left (x m)).objects = m.objects) : Confined settable x :=
  fun m => .of_objects (still m)

theorem confined_pure (value : α) : Confined settable (pure value : Run α) := confined_still fun _ => rfl

theorem confined_get : Confined settable (get : Run Machine) := confined_still fun _ => rfl

theorem confined_modify {f : Machine → Machine} (same : ∀ m, (f m).objects = m.objects) :
    Confined settable (modify f : Run Unit) :=
  confined_still same

theorem confined_raise (kind : FaultKind) (message : String) : Confined settable (raise kind message : Run α) :=
  confined_still fun _ => rfl

theorem confined_textAddress (ref : TextRef) : Confined settable (textAddress ref) := by
  refine confined_still fun m => ?_
  simp only [textAddress, run_bind, run_get]
  split <;> rfl

theorem confined_address (value : Value) : Confined settable (address value) := by
  cases value with
  | word word => exact confined_pure word
  | text ref => exact confined_textAddress ref
  | object ref => exact confined_pure _

theorem confined_valueAt (word : Int64) : Confined settable (do return (← get).valueAt word) :=
  confined_get.bind fun _ => confined_pure _

theorem confined_operate (op : CodeOp) (left right : Value) : Confined settable (operate op left right) := by
  unfold operate
  split
  · exact confined_pure _
  · exact (confined_address left).bind fun _ => (confined_address right).bind fun _ => confined_valueAt _

theorem confined_countMade : Confined settable countMade := confined_modify fun _ => rfl

theorem confined_makeText (text : String) : Confined settable (makeText text) :=
  confined_countMade.bind fun _ => confined_get.bind fun _ =>
    Confined.bind (confined_modify fun _ => rfl) fun _ => confined_pure _

/-- A new object comes behind those that are there. -/
theorem confined_allocate (slots : Nat) (className : Value) : Confined settable (allocate slots className) := by
  unfold allocate
  refine confined_countMade.bind fun _ => confined_get.bind fun _ => Confined.bind ?_ fun _ => confined_pure _
  intro m id held found
  refine ⟨held, ?_, rfl, fun _ _ => rfl⟩
  show (m.objects.push _)[id]? = some held
  obtain ⟨inside, -⟩ := Array.getElem?_eq_some_iff.mp found
  rw [Array.getElem?_push_lt inside, ← Array.getElem?_eq_getElem inside, found]

theorem confined_goAstray (stray : Stray) : Confined settable (goAstray stray) := confined_modify fun _ => rfl

theorem confined_outOfRoom : Confined settable (outOfRoom : Run α) :=
  (confined_goAstray _).bind fun _ => confined_raise _ _

theorem confined_needSlot (object : Value) (slot : Nat) : Confined settable (needSlot object slot) := by
  refine confined_get.bind fun _ => ?_
  split
  · exact confined_pure _
  · exact confined_goAstray _

theorem confined_needText (value : Value) : Confined settable (needText value) := by
  unfold needText
  split
  · exact confined_pure _
  · exact confined_goAstray _

theorem confined_needArgs (primitive : Primitive) (args : List Value) :
    Confined settable (needArgs primitive args) := by
  unfold needArgs
  split
  · exact confined_pure _
  · exact confined_goAstray _

theorem confined_readSlot (object : Value) (slot : Nat) : Confined settable (readSlot object slot) := by
  refine (confined_needSlot object slot).bind fun _ => ?_
  cases object with
  | word _ | text _ => exact confined_pure _
  | object _ => exact confined_get.bind fun _ => confined_pure _

theorem confined_setSlot {id slot : Nat} (may : settable id slot) (value : Value) :
    Confined settable (modify fun machine =>
      { machine with objects := machine.objects.modify id (·.set slot value) } : Run Unit) := by
  intro m other held found
  have changed : (m.objects.modify id (·.set slot value))[other]? =
      if id = other then some (held.set slot value) else some held := by
    rw [Array.getElem?_modify, found]
    rfl
  by_cases own : id = other
  · refine ⟨held.set slot value, changed.trans (if_pos own), List.length_set, fun spare spared => ?_⟩
    refine List.getElem?_set_ne ?_
    rintro rfl
    exact spared (own ▸ may)
  · exact ⟨held, changed.trans (if_neg own), rfl, fun _ _ => rfl⟩

/-- A slot may be set if it may be set in the object at hand. -/
theorem confined_writeSlot {object : Value} {slot : Nat}
    (may : ∀ ref, object = .object ref → settable ref.id (ref.skipped + slot)) (value : Value) :
    Confined settable (writeSlot object slot value) := by
  refine (confined_needSlot object slot).bind fun _ => ?_
  cases object with
  | word _ | text _ => exact confined_pure _
  | object ref => exact confined_setSlot (may ref rfl) value

theorem confined_fillSlots {object : Value} {slots : List Nat}
    (may : ∀ slot ∈ slots, ∀ value, Confined settable (writeSlot object slot value)) (values : List Value) :
    Confined settable (fillSlots object slots values) := by
  induction slots generalizing values with
  | nil => exact confined_pure ()
  | cons slot slots ih =>
    rw [List.forall_mem_cons] at may
    cases values with
    | nil => exact confined_pure ()
    | cons value values => exact (may.1 value).bind fun _ => ih may.2 values

theorem confined_withWords (values : List Value) (f : List Int64 → Int64) :
    Confined settable (withWords values f) := by
  have words : Confined settable (values.mapM address) := by
    induction values with
    | nil => exact confined_pure _
    | cons value rest ih =>
      rw [List.mapM_cons]
      exact (confined_address value).bind fun _ => ih.bind fun _ => confined_pure _
  exact words.bind fun _ => confined_valueAt _

theorem confined_enter (frame : Option String) : Confined settable (enter frame) := by
  refine confined_still fun m => ?_
  rw [run_enter]
  split
  · rfl
  · split <;> rfl

theorem confined_callPrimitive (primitive : Primitive) (args : List Value) :
    Confined settable (callPrimitive primitive args) := by
  refine (confined_needArgs primitive args).bind fun _ => confined_get.bind fun machine => ?_
  cases primitive with
  | enter => exact (confined_enter _).bind fun _ => confined_pure _
  | leave => exact Confined.bind (confined_modify fun _ => rfl) fun _ => confined_pure _
  | initModule => exact confined_pure _
  | alloc =>
    refine (confined_address _).bind fun slots => ?_
    dsimp only
    split
    · exact (confined_goAstray _).bind fun _ => confined_allocate _ _
    · exact confined_allocate _ _
  | concat => exact (confined_needText _).bind fun _ => (confined_needText _).bind fun _ => confined_makeText _
  | strEq => exact (confined_needText _).bind fun _ => (confined_needText _).bind fun _ => confined_pure _
  | showStr => exact (confined_needText _).bind fun _ => confined_makeText _
  | intToStr | showInt => exact (confined_address _).bind fun _ => confined_makeText _
  | showObj =>
    show Confined settable (showObject _)
    unfold showObject
    split
    · exact (confined_readSlot _ 0).bind fun _ => (confined_needText _).bind fun _ => confined_makeText _
    · split
      · exact confined_pure _
      · exact (confined_goAstray _).bind fun _ => confined_pure _
  | div | mod =>
    refine (confined_address _).bind fun left => (confined_address _).bind fun right => ?_
    refine Confined.bind ?_ fun _ => confined_pure _
    first | unfold divide | unfold remainder
    split
    · exact confined_raise _ _
    · split <;> exact confined_pure _
  | exit => exact confined_raise _ _
  | fail => exact (confined_needText _).bind fun _ => confined_raise _ _
  | println =>
    refine (confined_needText _).bind fun _ => Confined.bind (confined_modify fun m => ?_) fun _ => confined_pure _
    split <;> rfl

theorem confined_initialise (key : CellKey) {body : Run Value} (run : Confined settable body) :
    Confined settable (initialise key body) := by
  intro m
  rw [run_initialise]
  split
  · have inside := run (m.entered key)
    cases result : body (m.entered key) with
    | ok value after =>
      rw [result] at inside
      exact inside
    | error fault after =>
      rw [result] at inside
      exact inside
  · exact .refl m

variable {call : Caller}

section

variable (calls : ∀ symbol args, Confined settable (call symbol args))
include calls

theorem confined_framed (frame : String) {body : Run Value} (run : Confined settable body) :
    Confined settable (framed call frame body) :=
  (calls _ _).bind fun _ => run.bind fun _ => (calls _ _).bind fun _ => confined_pure _

/-- The code at hand may set the given slots of its object. -/
def MaySet (settable : Nat → Nat → Prop) (object : Value) (slots : List Nat) : Prop :=
  ∀ slot ∈ slots, ∀ value, Confined settable (writeSlot object slot value)

omit calls in
theorem MaySet.left {object : Value} {first rest : List Nat} (may : MaySet settable object (first ++ rest)) :
    MaySet settable object first :=
  fun slot listed => may slot (List.mem_append_left _ listed)

omit calls in
theorem MaySet.right {object : Value} {first rest : List Nat} (may : MaySet settable object (first ++ rest)) :
    MaySet settable object rest :=
  fun slot listed => may slot (List.mem_append_right _ listed)

set_option linter.unusedSectionVars false in
mutual

/-- Code sets the slots that it names, and what its calls set. Setting a slot is a tame step, so this does not
follow from the congruence of runs. -/
theorem confined_eval : ∀ (code : Code) {activation : Activation},
    MaySet settable activation.self code.stores → Confined settable (eval call activation code)
  | .word _, _, _ | .text _ _, _, _ | .bound _, _, _ | .self, _, _ => by
    unfold eval
    exact confined_pure _
  | .cell _, _, _ => by
    unfold eval
    exact confined_get.bind fun _ => confined_pure _
  | .slot object slot, _, may => by
    unfold eval
    exact (confined_eval object may).bind fun _ => confined_readSlot _ slot
  | .call symbol args, _, may => by
    unfold eval
    exact (confined_evalAll args may).bind fun values => calls symbol values
  | .op op left right, _, may => by
    unfold eval
    refine (confined_eval left may.left).bind fun one => ?_
    exact (confined_eval right may.right).bind fun two => confined_operate op one two
  | .not operand, _, may => by
    unfold eval
    exact (confined_eval operand may).bind fun _ => confined_pure _
  | .both left right, _, may => by
    unfold eval
    refine (confined_eval left may.left).bind fun one => ?_
    split
    · exact (confined_eval right may.right).bind fun _ => confined_pure _
    · exact confined_pure _
  | .either left right, _, may => by
    unfold eval
    refine (confined_eval left may.left).bind fun one => ?_
    split
    · exact confined_pure _
    · exact (confined_eval right may.right).bind fun _ => confined_pure _
  | .cond condition thenBranch elseBranch, _, may => by
    unfold eval
    refine (confined_eval condition may.left.left).bind fun tested => ?_
    split
    · exact confined_eval thenBranch may.left.right
    · exact confined_eval elseBranch may.right
  | .block body, _, may => by
    unfold eval
    exact confined_evalBody body may

theorem confined_evalAll : ∀ (args : List Code) {activation : Activation},
    MaySet settable activation.self (Code.storesAll args) → Confined settable (evalAll call activation args)
  | [], _, _ => by
    unfold evalAll
    exact confined_pure _
  | arg :: rest, _, may => by
    unfold evalAll
    refine (confined_eval arg may.left).bind fun _ => ?_
    exact (confined_evalAll rest may.right).bind fun _ => confined_pure _

theorem confined_evalBody : ∀ (steps : List CodeStep) {activation : Activation} {last : Value},
    MaySet settable activation.self (CodeStep.storesAll steps) →
    Confined settable (evalBody call activation last steps)
  | [], _, _, _ => by
    unfold evalBody
    exact confined_pure _
  | .run value :: rest, _, _, may => by
    unfold evalBody
    exact (confined_eval value may.left).bind fun _ => confined_evalBody rest may.right
  | .bind _ value :: rest, _, _, may => by
    unfold evalBody
    exact (confined_eval value may.left).bind fun _ => confined_evalBody rest may.right
  | .setCell _ value :: rest, _, _, may => by
    unfold evalBody
    refine (confined_eval value may.left).bind fun _ => ?_
    exact Confined.bind (confined_modify fun _ => rfl) fun _ => confined_evalBody rest may.right
  | .setSlot slot value :: rest, _, _, may => by
    unfold evalBody
    have later : MaySet settable _ (_ ++ _) := fun other listed => may other (List.mem_cons_of_mem _ listed)
    refine (confined_eval value later.left).bind fun held => ?_
    exact (may slot List.mem_cons_self held).bind fun _ => confined_evalBody rest later.right

end

/-- A procedure sets the slots that it names in the object at hand, and what its calls set. -/
theorem confined_callProcedure {procedure : Procedure} {args : List Value}
    (may : ∀ object, Receives call args object procedure → MaySet settable object procedure.stores)
    (initialises : Bool) (image : Nat) :
    Confined settable (callProcedure call initialises image procedure args) := by
  cases procedure with
  | function frame params body =>
    have run (activation : Activation) (none : activation.self = .zero) :
        Confined settable (eval call activation body) :=
      confined_eval calls body (none ▸ may .zero rfl)
    cases frame with
    | none => exact run _ rfl
    | some frame => exact confined_framed calls frame (run _ rfl)
  | method frame params body => exact confined_framed calls frame (confined_eval calls body (may _ rfl))
  | construct frame className slots fields body =>
    refine confined_framed calls frame ((calls _ _).bind_result fun m object after made => ?_)
    have own : MaySet settable object (fields ++ body.stores) := may object ⟨m, after, made⟩
    have ran : Confined settable (eval call { image, self := object } body) := confined_eval calls body own.right
    exact (confined_fillSlots own.left args).bind fun _ => ran.bind fun _ => confined_pure _
  | ensure owner frame body =>
    cases initialises with
    | false => exact confined_pure _
    | true =>
      refine Confined.bind ?_ fun _ => confined_pure _
      exact confined_initialise _ (confined_framed calls frame (confined_eval calls body (may .zero rfl)))

end

variable {images : Array Image} {image : Image} {self fuel : Nat} {symbol : String} {procedure : Procedure}

/-- How code calls the symbols that its image binds. -/
def boundCaller (images : Array Image) (image : Image) (self fuel : Nat) : Caller := fun symbol args =>
  match image.target? self symbol with
  | some target => callTarget images fuel target args
  | none => return .zero

theorem callTarget_procedure (found : images[self]? = some image)
    (named : image.artifact.procedures.lookup symbol = some procedure) (fuel : Nat) (args : List Value) :
    ∃ initialises, callTarget images (fuel + 1) (.procedure self symbol) args =
      callProcedure (boundCaller images image self fuel) initialises self procedure args := by
  rw [callTarget]
  simp only [found, named]
  exact ⟨_, rfl⟩

/-- Whatever is called, objects keep the names of their classes if no loaded code sets their slot. -/
theorem confined_callTarget (loaded : ∀ image ∈ images, image.artifact.SparesNames) (fuel : Nat)
    (target : Target) (args : List Value) :
    Confined (fun _ slot => slot ≠ 0) (callTarget images fuel target args) := by
  induction fuel generalizing target args with
  | zero => exact confined_outOfRoom
  | succ fuel ih =>
    cases target with
    | primitive own => exact confined_callPrimitive own args
    | foreign function => exact confined_withWords args function
    | procedure self symbol =>
      cases found : images[self]? with
      | none =>
        rw [callTarget, found]
        exact confined_pure _
      | some image =>
        cases named : image.artifact.procedures.lookup symbol with
        | none =>
          simp only [callTarget, found, named]
          exact confined_pure _
        | some procedure =>
          obtain ⟨initialises, run⟩ := callTarget_procedure found named fuel args
          rw [run]
          refine confined_callProcedure (fun symbol args => ?_) (fun object _ slot listed value => ?_) _ _
          · unfold boundCaller
            cases image.target? self symbol with
            | none => exact confined_pure _
            | some target => exact ih target args
          · refine confined_writeSlot (fun ref _ none => ?_) value
            exact loaded image (Array.mem_of_getElem? found) _ (mem_of_lookup named) slot listed
              (Nat.add_eq_zero_iff.mp none).2

theorem confined_boundCaller (loaded : ∀ image ∈ images, image.artifact.SparesNames) (image : Image)
    (self fuel : Nat) (symbol : String) (args : List Value) :
    Confined (fun _ slot => slot ≠ 0) (boundCaller images image self fuel symbol args) := by
  unfold boundCaller
  cases image.target? self symbol with
  | none => exact confined_pure _
  | some target => exact confined_callTarget loaded fuel target args

/-! Objects that constructors make. -/

/-- A run makes an object that was not there: it has so many slots, and the first holds the name of its
class. -/
def Makes (slots : Nat) (className : String) (m : Machine) (object : Value) (m' : Machine) : Prop :=
  ∃ id held, object = .object ⟨id, 0⟩ ∧ m.objects.size ≤ id ∧ m'.objects[id]? = some held ∧
    held.length = slots ∧ held[0]? = some (.ofText className)

theorem Spares.size_le (spares : Spares settable m m') : m.objects.size ≤ m'.objects.size := by
  by_contra more
  obtain ⟨later, found, -⟩ := spares m'.objects.size _ (Array.getElem?_eq_getElem (Nat.lt_of_not_le more))
  simp at found

variable {slots : Nat} {className : String} {object : Value}

theorem Makes.behind (made : Makes slots className m' object m'') (spares : Spares settable m m') :
    Makes slots className m object m'' := by
  obtain ⟨id, held, same, fresh, rest⟩ := made
  exact ⟨id, held, same, Nat.le_trans spares.size_le fresh, rest⟩

theorem Makes.before (made : Makes slots className m object m')
    (spares : Spares (fun _ slot => slot ≠ 0) m' m'') :
    Makes slots className m object m'' := by
  obtain ⟨id, held, same, fresh, found, length, name⟩ := made
  obtain ⟨later, there, lengthToo, kept⟩ := spares id held found
  exact ⟨id, later, same, fresh, there, lengthToo.trans length, (kept 0 (by simp)).trans name⟩

/-- How many slots can be asked for: such a number is below the address of any text or object. -/
def slotLimit : Nat := 0x200000000000

theorem settle_slots (m : Machine) (held : slots < slotLimit) :
    m.settle (.word (Int64.ofNat slots)) = .word (Int64.ofNat slots) := by
  refine if_pos (?_ : Int64.ofNat slots < textBase)
  have first : textBase.toInt = slotLimit := by decide
  rw [Int64.lt_iff_toInt_lt, Int64.toInt_ofNat_of_lt (Nat.lt_trans held (by decide)), first]
  exact Int.ofNat_lt.mpr held

theorem alloc_makes (some : 1 ≤ slots) (held : slots < slotLimit)
    (run : callPrimitive .alloc [.word (Int64.ofNat slots), .ofText className] m = .ok object m') :
    Makes slots className m object m' := by
  have number : (Int64.ofNat slots).toNatClampNeg = slots :=
    Int64.toNatClampNeg_ofNat_of_lt (Nat.lt_trans held (by decide))
  have counted : (pure (Int64.ofNat slots) : Run Int64) m = .ok (Int64.ofNat slots) m := rfl
  have enough : needArgs .alloc [.word (Int64.ofNat slots), .ofText className] m = .ok () m := rfl
  have positive : ¬ Int64.ofNat slots < 0 := by
    rw [Int64.lt_iff_toInt_lt, Int64.toInt_ofNat_of_lt (Nat.lt_trans held (by decide))]
    exact Int.not_lt.mpr (Int.natCast_nonneg slots)
  have allocated : allocate slots (.ofText className) m = .ok object m' := by
    simp only [callPrimitive, applyPrimitive, run_bind, enough, run_get, List.headD_cons, List.tail_cons,
      settle_slots m held, address, counted, positive, if_false, number] at run
    exact run
  cases allocated
  refine ⟨m.objects.size, _, rfl, Nat.le_refl _, Array.getElem?_push_size, ?_, rfl⟩
  rw [List.length_cons, List.length_replicate, Nat.sub_add_cancel some]

theorem run_bind_ok {f : α → Run β} :
    (x >>= f) m = .ok value m'' ↔ ∃ inner m', x m = .ok inner m' ∧ f inner m' = .ok value m'' := by
  rw [run_bind]
  cases x m with
  | error fault after => simp
  | ok inner after => simp

theorem run_pure_ok {value result : α} :
    (pure value : Run α) m = .ok result m' ↔ value = result ∧ m = m' := by
  show (EStateM.Result.ok value m : EStateM.Result _ _ _) = _ ↔ _
  simp

/-- The object of a constructor keeps its slots and the name of its class until the constructor is left. -/
theorem construct_makes {frame : String} {initialises : Bool} {fields : List Nat} {body : Code} {args : List Value}
    (calls : ∀ symbol args, Confined (fun _ slot => slot ≠ 0) (call symbol args))
    (allocates : ∀ args m object m', call Primitive.alloc.symbol args m = .ok object m' →
      callPrimitive .alloc args m = .ok object m')
    (spares : ∀ slot ∈ fields ++ body.stores, slot ≠ 0) (some : 1 ≤ slots) (held : slots < slotLimit)
    (run : callProcedure call initialises self (.construct frame className slots fields body) args m =
      .ok object m') : Makes slots className m object m' := by
  have may : ∀ object, MaySet (fun _ slot => slot ≠ 0) object (fields ++ body.stores) :=
    fun object slot listed value => confined_writeSlot (fun ref _ none =>
      spares slot listed (Nat.add_eq_zero_iff.mp none).2) value
  simp only [callProcedure, framed, run_bind_ok, run_pure_ok] at run
  obtain ⟨_, m₁, entered, _, m₅, body, _, m₆, left, rfl, rfl⟩ := run
  obtain ⟨made, m₂, allocated, _, m₃, filled, _, m₄, ran, rfl, rfl⟩ := body
  have fresh := alloc_makes some held (allocates _ _ _ _ allocated)
  have stored := (confined_fillSlots (may made).left args).ok filled
  have runs : Confined (fun _ slot => slot ≠ 0) (eval call { image := self, self := made } body) :=
    confined_eval calls body (may made).right
  have settled := runs.ok ran
  exact (((fresh.behind ((calls _ _).ok entered)).before stored).before settled).before ((calls _ _).ok left)

/-- A call of a constructor makes an object, where the code for new objects is the primitive one. -/
theorem callTarget_makes {frame : String} {fields : List Nat} {body : Code} {args : List Value}
    (loaded : ∀ image ∈ images, image.artifact.SparesNames) (found : images[self]? = some image)
    (named : image.artifact.procedures.lookup symbol = some (.construct frame className slots fields body))
    (allocates : image.target? self Primitive.alloc.symbol = some (.primitive .alloc))
    (some : 1 ≤ slots) (held : slots < slotLimit)
    (run : callTarget images fuel (.procedure self symbol) args m = .ok object m') :
    Makes slots className m object m' := by
  cases fuel with
  | zero => cases run
  | succ fuel =>
    obtain ⟨initialises, same⟩ := callTarget_procedure found named fuel args
    rw [same] at run
    refine construct_makes (confined_boundCaller loaded image self fuel) ?_ ?_ some held run
    · intro args m object m' allocated
      simp only [boundCaller, allocates] at allocated
      cases fuel with
      | zero => cases allocated
      | succ fuel => exact allocated
    · exact loaded image (Array.mem_of_getElem? found) _ (mem_of_lookup named)

end Machine

end ScriptShell
