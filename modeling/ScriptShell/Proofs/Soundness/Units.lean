import ScriptShell.Proofs.Soundness.Lowering
import ScriptShell.Proofs.Soundness.Names

/-! Programs of modules are sound. Units are accepted one after the other, and their code is loaded, linked
and called in any order. Every unit can be lowered, and as long as names stand for things of one type, its
code passes the verifier, and whatever runs gives a value of its type or a fault. -/
namespace ScriptShell

theorem Symbols.allModules_empty : Symbols.AllModules {} where
  modular id := by simp [Typing.Modular, Symbols.get]
  worded := by
    intro key member found
    simp [Symbols.member?, Symbols.get, ContainerSymbol.find?] at found
  differ id := by simp [Symbols.get]

/-- Units without classes, the last one first, each accepted behind the symbols of those before it, with
names of their own at top level. -/
inductive Accepted : List Typing.CheckedUnit → SymbolTable → Prop
  | nil : Accepted [] {}
  | unit {σ : Type} {services : Services σ} {host host' : σ} {program : Program}
      (before : Accepted units table) (classFree : ∀ item ∈ program.items, item.classFree = true)
      (distinct : (program.items.map Container.name).Nodup)
      (fresh : ∀ item ∈ program.items, item.name ∉ table.names)
      (accepted : typecheck services table host program = (.ok unit, host')) :
      Accepted (unit :: units) (table.commit unit.symbols unit.containers)

/-- What an accepted unit is to the symbols of all units. -/
structure Typing.CheckedUnit.Within (T : Symbols) (unit : Typing.CheckedUnit) : Prop where
  modules : unit.symbols.AllModules
  grows : unit.symbols.Extends T
  items : ∃ base, ∀ item ∈ unit.program.items, item.Fits base unit.symbols

theorem Accepted.within (accepted : Accepted units table) :
    table.symbols.AllModules ∧ ∀ unit ∈ units, unit.Within table.symbols := by
  induction accepted with
  | nil => exact ⟨Symbols.allModules_empty, by simp⟩
  | @unit units table unit _ _ _ _ program before classFree _ _ accepted ih =>
    obtain ⟨modules, units⟩ := ih
    have fits := typecheck_fits accepted
    have grows : table.symbols.Extends unit.symbols := ⟨fits.size, fits.old⟩
    have later : unit.symbols.AllModules := by
      refine ⟨fun id => ?_, fits.worded modules.worded, fits.names modules.differ⟩
      by_cases old : id < table.symbols.containers.size
      · unfold Typing.Modular
        rw [fits.old id old]
        exact modules.modular id
      · exact fits.modules classFree id (Nat.le_of_not_lt old)
    refine ⟨later, fun own listed => ?_⟩
    obtain rfl | listed := List.mem_cons.mp listed
    · exact ⟨later, .refl _, _, fits.items⟩
    · have earlier := units own listed
      exact ⟨earlier.modules, earlier.grows.trans grows, earlier.items⟩

namespace Typing.CheckedUnit

variable {S : Symbols} {unit : Typing.CheckedUnit}

/-- Code of modules never asks for an object, so there is always code. -/
theorem Within.lowers (within : unit.Within S) :
    ∃ artifacts, Lowering.lowerProgram unit.symbols unit.program = .ok artifacts := by
  obtain ⟨base, items⟩ := within.items
  exact Lowering.lowerProgram_ok items
    (TypedProgram.inPlace_of_modules (fun id => (within.modules.modular id).1) items)

/-- The procedures of a unit have signatures. -/
theorem Within.signed (within : unit.Within S)
    (lowered : Lowering.lowerProgram unit.symbols unit.program = .ok artifacts)
    (listed : artifact ∈ artifacts) : artifact.Signed S := by
  obtain ⟨base, items⟩ := within.items
  intro entry present
  obtain ⟨id, members, place, made⟩ :=
    Lowering.lowerProgram_entries items lowered artifact listed entry present
  obtain ⟨own, given, typed⟩ := made.hasSignature within.modules place
  exact ⟨own, within.grows.flatMap given, typed.extends within.grows⟩

theorem Within.artifact_fits (within : unit.Within S) (coherent : S.Coherent)
    (lowered : Lowering.lowerProgram unit.symbols unit.program = .ok artifacts)
    (listed : artifact ∈ artifacts) : artifact.Fits S := by
  intro entry present signature called
  obtain ⟨own, given, typed⟩ := within.signed lowered listed entry present
  have same : signature = own := by
    have one := coherent.procedures _ given
    obtain called | called | ⟨primitive, named, -⟩ := called
    · exact one _ (List.mem_append_left _ called) rfl
    · exact one _ (List.mem_append_right _ called) rfl
    · exact absurd named (coherent.primitives _ given primitive primitive.mem_all)
  exact same ▸ typed

/-- The backend takes the code of a unit whose names stand for things of one type. -/
theorem Within.generates (within : unit.Within S) (coherent : S.Coherent) (foreigns : S.ForeignsMatch)
    (source : String) : ∃ output, Compiler.generate source .made unit = .ok output := by
  obtain ⟨artifacts, lowered⟩ := within.lowers
  refine ⟨⟨artifacts, unit.program.exports⟩, ?_⟩
  have signed : ∀ artifact ∈ artifacts, artifact.Signed S := fun artifact => within.signed lowered
  have verified := @Compiler.verify_signed S ⟨artifacts, unit.program.exports⟩ signed coherent foreigns source
  unfold Compiler.generate Compiler.finish
  simp only [lowered, verified]

end Typing.CheckedUnit

/-- The states that loading, linking and calling the code of some units leads to. The host may change
settings of the registry and the context of the machine in between. -/
inductive Running (S : Symbols) (units : List Typing.CheckedUnit) : Registry → Machine → Prop
  | start (empty : registry.images = #[]) : Running S units registry {}
  | configure (before : Running S units registry machine) (same : other.images = registry.images) :
      Running S units other machine
  | context (before : Running S units registry machine) (context : Context) (interrupt : Bool) :
      Running S units registry { machine with context, interrupt }
  | load (before : Running S units registry machine) (known : unit ∈ units)
      (lowered : Lowering.lowerProgram unit.symbols unit.program = .ok artifacts)
      (listed : artifact ∈ artifacts) (files : Files) :
      Running S units (registry.addArtifact files artifact) machine
  | link (before : Running S units registry machine)
      (libs : FunctionTable.Match S (registry.toolchain.host :: registry.links)) (pending : List Nat) :
      Running S units (registry.linkAll pending) machine
  | call {index : Nat} {image : Image} {symbol : String} {target : Target} {signature : Signature}
      {values : List Value} (before : Running S units registry machine)
      (loaded : registry.images[index]? = some image)
      (bound : image.target? index symbol = some target) (called : S.Calls symbol signature)
      (args : Value.HaveTypes machine signature.params values) (fuel : Nat) :
      Running S units registry
        (machine.guarded (Machine.callTarget registry.images fuel target values)).2
  /-- The compiler runs the initialiser of an inline value. -/
  | evaluate {loader : Loader} {symbol : String} {code : Code}
      (before : Running S units registry machine)
      (typed : code.HasType S [] type) (unused : ∀ signature, ¬ S.Calls symbol signature)
      (links : FunctionTable.Match S (registry.toolchain.host :: registry.links))
      (libs : FunctionTable.Match S (registry.toolchain.host :: loader.libraries)) :
      Running S units (registry.evaluate loader machine symbol code).2.2
        (registry.evaluate loader machine symbol code).2.1

namespace Machine

variable {S : Symbols} {m : Machine}

theorem CellsTyped.context (cells : m.CellsTyped S) (context : Context) (interrupt : Bool) :
    CellsTyped S { m with context, interrupt } :=
  cells.of_grows (.of_eq rfl rfl) rfl

theorem CellsTyped.guarded (cells : m.CellsTyped S) {body : Run α}
    (yields : ∀ m' : Machine, m.Grows m' → m'.CellsTyped S → ∃ holds, Yields S holds body m') :
    CellsTyped S (m.guarded body).2 := by
  have opened : m.openGuard.CellsTyped S := cells.context _ _
  obtain ⟨holds, runs⟩ := yields m.openGuard (.of_eq rfl rfl) opened
  unfold Machine.guarded
  unfold Yields at runs
  dsimp only [EStateM.run]
  cases result : body m.openGuard with
  | ok value after =>
    simp only [result] at runs ⊢
    exact runs.2.1.context _ _
  | error fault after =>
    simp only [result] at runs ⊢
    exact runs.2.context _ _

end Machine

section

variable {S : Symbols} {registry : Registry} {machine : Machine} {symbol : String} {code : Code}

/-- Code that is run once on the side, under a symbol that nothing calls. -/
theorem Registry.Sound.probe (sound : registry.Sound S) (cells : machine.CellsTyped S)
    (coherent : S.Coherent) (foreigns : S.ForeignsMatch) (typed : code.HasType S [] type)
    (unused : ∀ signature, ¬ S.Calls symbol signature)
    (provide : ∀ (symbol : String) (target : Target), bindings.lookup symbol = some target →
      target.Provides S symbol)
    (own : image = ⟨⟨symbol, [(symbol, .function none [] code)]⟩, .linked bindings⟩) :
    (machine.callWord (registry.images.push image)
      (.procedure registry.images.size symbol)).2.CellsTyped S := by
  have probe : image.Sound S := by
    subst own
    refine ⟨fun entry listed signature called => ?_, provide⟩
    obtain rfl := List.mem_singleton.mp listed
    exact absurd called (unused signature)
  have sound : ∀ image' ∈ registry.images.push image, image'.Sound S := by
    intro other listed
    obtain listed | rfl := Array.mem_push.mp listed
    · exact sound other listed
    · exact probe
  have fit : Image.AllFit S (registry.images.push image) := .of_sound sound coherent foreigns
  have fits : Target.Fits S (registry.images.push image) ⟨[], type⟩
      (.procedure registry.images.size symbol) := by
    intro found loaded procedure listed
    rw [Array.getElem?_push_size, Option.some.injEq] at loaded
    subst loaded own
    simp only [List.lookup_cons_self, Option.some.injEq] at listed
    subst listed
    exact ⟨List.nodup_nil, rfl, typed⟩
  refine cells.guarded fun m' _ cells => ⟨fun _ _ => True, ?_⟩
  refine (Machine.callTarget_sound coherent fit Machine.callBound fits cells .nil).bind ?_
  exact fun value m' _ cells _ => (Machine.yields_address cells value).imp fun _ _ _ _ => trivial

theorem Registry.Sound.evaluate {loader : Loader} (sound : registry.Sound S)
    (cells : machine.CellsTyped S) (coherent : S.Coherent) (foreigns : S.ForeignsMatch)
    (typed : code.HasType S [] type) (unused : ∀ signature, ¬ S.Calls symbol signature)
    (links : FunctionTable.Match S (registry.toolchain.host :: registry.links))
    (libs : FunctionTable.Match S (registry.toolchain.host :: loader.libraries)) :
    (registry.evaluate loader machine symbol code).2.2.Sound S ∧
      (registry.evaluate loader machine symbol code).2.1.CellsTyped S := by
  unfold Registry.evaluate
  dsimp only
  split
  · exact ⟨sound, cells⟩
  · split
    · exact ⟨sound, cells⟩
    · rename_i bindings bound
      have linked := sound.linkAll links (Registry.reached bindings)
      have after := linked.probe cells coherent foreigns typed unused
        (fun symbol target found => Registry.bindings?_provide libs bound found) rfl
      split
      · exact ⟨linked, cells⟩
      · split
        · rename_i called
          exact ⟨linked, by rwa [called] at after⟩
        · rename_i called
          exact ⟨linked, by rwa [called] at after⟩

end

/-- What is loaded, linked and called keeps to its types, one step after the other. -/
theorem Running.sound (within : ∀ unit ∈ units, unit.Within S) (coherent : S.Coherent)
    (foreigns : S.ForeignsMatch) (running : Running S units registry machine) :
    registry.Sound S ∧ machine.CellsTyped S := by
  induction running with
  | start empty =>
    constructor
    · intro image listed
      simp [empty] at listed
    · intro key type _
      exact Value.hasType_zero _ type
  | configure before same ih =>
    refine ⟨fun image listed => ?_, ih.2⟩
    rw [same] at listed
    exact ih.1 image listed
  | context before context interrupt ih => exact ⟨ih.1, ih.2.context context interrupt⟩
  | load before known lowered listed files ih =>
    exact ⟨ih.1.addArtifact ((within _ known).artifact_fits coherent lowered listed) files, ih.2⟩
  | link before libs pending ih => exact ⟨ih.1.linkAll libs pending, ih.2⟩
  | call before loaded bound called args fuel ih =>
    have fit : Image.AllFit S _ := .of_sound ih.1 coherent foreigns
    refine ⟨ih.1, ih.2.guarded fun m' grows cells => ?_⟩
    have typed := Machine.HaveTypes.mono args grows
    exact ⟨_, Machine.callTarget_sound coherent fit fuel (fit _ _ loaded _ _ bound _ called) cells typed⟩
  | evaluate before typed unused links libs ih =>
    exact ih.1.evaluate ih.2 coherent foreigns typed unused links libs

/-- Loaded code that calls a symbol with arguments of the parameter types gets a value of the result type,
or a fault. -/
def Machine.CallsKeep (S : Symbols) (images : Array Image) (machine : Machine) : Prop :=
  ∀ (index : Nat) (image : Image), images[index]? = some image →
    ∀ (symbol : String) (target : Target), image.target? index symbol = some target →
    ∀ (signature : Signature), S.Calls symbol signature →
    ∀ (values : List Value), Value.HaveTypes machine signature.params values →
    ∀ (fuel : Nat), Machine.Yields S (fun m' value => value.HasType m' signature.result)
      (Machine.callTarget images fuel target values) machine

/-- The code of a well-typed expression, run in the place of loaded code where its locals hold values of
their types, gives a value of its type, or a fault. -/
def Machine.ExpressionsKeep (S : Symbols) (images : Array Image) (machine : Machine) (own : Symbols) :
    Prop :=
  ∀ (scope : Scope) (e : TypedExpr), WellTyped own false scope e →
    ∀ (place : Lowering.Place) (code : Code), place.symbols = own → Lowering.lowerExpr place e = .ok code →
    ∀ (locals : List (LocalId × Ty)) (activation : Machine.Activation), Lowering.Covers locals scope →
      activation.Typed locals machine →
    ∀ (index : Nat) (image : Image), images[index]? = some image →
    ∀ (fuel : Nat), Machine.Yields S (fun m' value => value.HasType m' e.type)
      (Machine.eval (image.caller images index fuel) activation code) machine

/-- Programs of modules keep to their types. Units can be lowered and their bodies are well-typed. Where names
stand for things of one type, the backend takes the code, and it keeps to its types. A value may be named like
the flag of a lazy one. -/
theorem modules_keep_types (accepted : Accepted units table) :
    (∀ unit ∈ units,
      (∃ artifacts, Lowering.lowerProgram unit.symbols unit.program = .ok artifacts) ∧
      ∀ body ∈ unit.program.bodies, ∃ scope, WellTyped unit.symbols false scope body.2) ∧
    (table.symbols.Coherent → table.symbols.ForeignsMatch →
      (∀ unit ∈ units, ∀ source, ∃ output, Compiler.generate source .made unit = .ok output) ∧
      ∀ (registry : Registry) (machine : Machine), Running table.symbols units registry machine →
        machine.CallsKeep table.symbols registry.images ∧
        ∀ unit ∈ units, machine.ExpressionsKeep table.symbols registry.images unit.symbols) := by
  obtain ⟨-, within⟩ := accepted.within
  constructor
  · intro unit known
    refine ⟨(within unit known).lowers, fun body listed => ?_⟩
    obtain ⟨base, items⟩ := (within unit known).items
    obtain ⟨scope, typed, -⟩ := TypedProgram.standsIn items body listed
    exact ⟨scope, typed⟩
  · intro coherent foreigns
    refine ⟨fun unit known => (within unit known).generates coherent foreigns, fun registry machine running => ?_⟩
    obtain ⟨sound, cells⟩ := running.sound within coherent foreigns
    have fit : Image.AllFit table.symbols registry.images := .of_sound sound coherent foreigns
    constructor
    · intro index image loaded symbol target bound signature called values args fuel
      have fits := fit index image loaded symbol target bound signature called
      exact Machine.callTarget_sound coherent fit fuel fits cells args
    · intro unit known scope e typed place code symbols lowered locals activation covers bound index
        image loaded fuel
      have coded := Lowering.lower_hasType (within unit known).modules typed rfl symbols covers lowered
      have serves := Machine.serves_caller fit loaded (Machine.callTarget_sound coherent fit fuel)
      exact Machine.eval_sound coherent serves (coded.extends (within unit known).grows) bound cells

/-- The check that two units are accepted, one with the other's names, and can be loaded and linked. -/
def keepsTypesOfTwo (first second : String) : Bool :=
  match Compiler.readSource first with
  | .ok one =>
    match typecheck {} {} () one with
    | (.ok first, _) =>
      match Compiler.readSource second with
      | .ok two =>
        match typecheck {} (({} : SymbolTable).commit first.symbols first.containers) () two with
        | (.ok second, _) =>
          match Lowering.lowerProgram first.symbols first.program with
          | .ok [a] =>
            match Lowering.lowerProgram second.symbols second.program with
            | .ok [b] =>
              let registry := (({} : Registry).addArtifact {} a).addArtifact {} b
              (one.items ++ two.items).all (·.classFree) &&
                decide (one.items.map Container.name).Nodup &&
                decide (two.items.map Container.name).Nodup &&
                two.items.all (fun item => decide (item.name ∉
                  (({} : SymbolTable).commit first.symbols first.containers).names)) &&
                decide second.symbols.Coherent &&
                decide (second.symbols.foreigns = [("kiln_rt_exit", ⟨[], .int⟩)]) &&
                (registry.toolchain.host :: registry.links).all (·.isEmpty) &&
                decide ((registry.linkAll [1]).images.size = 2)
            | _ => false
          | _ => false
        | _ => false
      | _ => false
    | _ => false
  | _ => false

/-- Two modules with an implicit function, a value that is read before it is initialised, and a function
from outside. -/
theorem modules_keep_types_of_two : ∃ (first second : Typing.CheckedUnit) (table : SymbolTable)
    (registry : Registry),
    Accepted [second, first] table ∧ table.symbols.Coherent ∧ table.symbols.ForeignsMatch ∧
    Running table.symbols [second, first] registry {} ∧ registry.images.size = 2 ∧
    Machine.CallsKeep table.symbols registry.images {} ∧
    ∀ unit ∈ [second, first], Machine.ExpressionsKeep table.symbols registry.images {} unit.symbols := by
  have run : keepsTypesOfTwo
      "module A \x7b\nextern def kiln_rt_exit(): Int\nimplicit def text(n: Int): Str = show(n)\nval x: Int = y\nlazy val y: Int = x + 1\n\x7d"
      "module B \x7b\nimport A._\nval z: Str = \x7b val n = y; \"\" ++ n \x7d\n\x7d" =
      true := by decide +kernel
  unfold keepsTypesOfTwo at run
  split at run
  · rename_i one parsed
    split at run
    · rename_i first host accepted
      split at run
      · rename_i two parsed'
        split at run
        · rename_i second host' accepted'
          split at run
          · rename_i a lowered
            split at run
            · rename_i b lowered'
              simp only [Bool.and_eq_true, List.all_append, List.all_eq_true, decide_eq_true_eq] at run
              obtain ⟨⟨⟨⟨⟨⟨⟨⟨free, free'⟩, distinct⟩, distinct'⟩, fresh⟩, coherent⟩, listed⟩, links⟩, size⟩ := run
              have accepted := Accepted.unit .nil free distinct (by simp [SymbolTable.names]) accepted
              have accepted := accepted.unit free' distinct' fresh accepted'
              have running : Running second.symbols [second, first] _ {} :=
                .link (.load (.load (.start rfl) (List.mem_cons_of_mem _ List.mem_cons_self) lowered
                  List.mem_cons_self {}) List.mem_cons_self lowered' List.mem_cons_self {})
                  (FunctionTable.match_of_isEmpty (List.all_eq_true.mpr links)) [1]
              have foreigns : second.symbols.ForeignsMatch := by
                intro own present primitive named
                rw [listed, List.mem_singleton] at present
                subst present
                obtain rfl : primitive = .exit := Primitive.symbol_injective named
                exact rfl
              obtain ⟨-, sound⟩ := (modules_keep_types accepted).2 coherent foreigns
              obtain ⟨calls, expressions⟩ := sound _ _ running
              exact ⟨first, second, _, _, accepted, coherent, foreigns, running, size, calls, expressions⟩
            · cases run
          · cases run
        · cases run
      · cases run
    · cases run
  · cases run

/-- The check that a unit is accepted and runs, and that the reader of a value gives a one. -/
def readsFlag (source : String) : Bool :=
  match Compiler.readSource source with
  | .ok program =>
    match typecheck {} {} () program with
    | (.ok unit, _) =>
      match Lowering.lowerProgram unit.symbols unit.program with
      | .ok [artifact] =>
        let registry := ({} : Registry).addArtifact {} artifact
        program.items.all (·.classFree) && decide (program.items.map Container.name).Nodup &&
          unit.symbols.foreigns.isEmpty && (registry.toolchain.host :: registry.links).all (·.isEmpty) &&
          decide (("M.x$done$get", ⟨[], .unit⟩) ∈ unit.symbols.procedures) &&
          match Machine.callTarget (registry.linkAll [0]).images 9 (.procedure 0 "M.x$done$get") [] {} with
          | .ok value _ => decide (value = .word 1)
          | .error _ _ => false
      | _ => false
    | _ => false
  | _ => false

/-- A value named like the flag of a lazy value of another type: reading it gives the flag. -/
theorem flag_read_as_unit : ∃ (unit : Typing.CheckedUnit) (table : SymbolTable) (registry : Registry)
    (machine : Machine),
    Accepted [unit] table ∧ table.symbols.ForeignsMatch ∧ Running table.symbols [unit] registry {} ∧
    table.symbols.Calls "M.x$done$get" ⟨[], .unit⟩ ∧
    Machine.callTarget registry.images 9 (.procedure 0 "M.x$done$get") [] {} = .ok (.word 1) machine ∧
    ¬ (Value.word 1).HasType machine .unit := by
  have run : readsFlag "module M \x7b\nval x$done: Unit = ()\nlazy val x = 5\nval y = x\n\x7d" = true := by
    decide +kernel
  unfold readsFlag at run
  split at run
  · rename_i program parsed
    split at run
    · rename_i unit host accepted
      split at run
      · rename_i artifact lowered
        dsimp only at run
        simp only [Bool.and_eq_true, List.all_eq_true, decide_eq_true_eq] at run
        obtain ⟨⟨⟨⟨⟨free, distinct⟩, foreigns⟩, links⟩, listed⟩, called⟩ := run
        have accepted : Accepted [unit] _ := .unit .nil free distinct (by simp [SymbolTable.names]) accepted
        have running : Running unit.symbols [unit] _ {} :=
          .link (.load (.start rfl) List.mem_cons_self lowered List.mem_cons_self {})
            (FunctionTable.match_of_isEmpty (List.all_eq_true.mpr links)) [0]
        split at called
        · rename_i value machine result
          refine ⟨unit, _, _, machine, accepted, fun own present => ?_, running, .inl listed, ?_, ?_⟩
          · have none : own ∈ unit.symbols.foreigns := present
            rw [List.isEmpty_iff.mp foreigns] at none
            cases none
          · rw [result, of_decide_eq_true called]
          · intro zero
            cases zero
        · cases called
      · cases run
    · cases run
  · cases run
end ScriptShell
