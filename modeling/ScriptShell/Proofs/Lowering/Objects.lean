import ScriptShell.Proofs.Lowering.Stores
import ScriptShell.Proofs.Running.Faults

/-! Objects and the code of their classes. The objects of a class are laid out in slots, one for each thing that
a member stores, and its code sets a slot only to give the member of that slot its value. So a run keeps the
size of every object and the name of its class, and what it changes in an object at hand belongs to the member
that it computes. -/
namespace ScriptShell

open Machine

theorem ContainerSymbol.hasSlot_iff {cls : ContainerSymbol} {slot : Nat} :
    cls.HasSlot slot ↔ slot ∈ cls.slots := by
  rw [HasSlot, ContainerSymbol.mem_slots]
  simp only [MemberSymbol.mem_slots]

/-- The objects of a class store something in every slot behind the name of the class, and nowhere else. -/
theorem ContainerSymbol.LaidOut.hasSlot_iff {cls : ContainerSymbol} (laid : cls.LaidOut) (slot : Nat) :
    cls.HasSlot slot ↔ 1 ≤ slot ∧ slot < cls.slotCount :=
  ContainerSymbol.hasSlot_iff.trans (laid.covers slot)

theorem ContainerSymbol.LaidOut.fills_ne_zero {cls : ContainerSymbol} {name : String} {slot : Nat}
    (laid : cls.LaidOut) (fills : cls.Fills name slot) : slot ≠ 0 :=
  Nat.ne_of_gt ((laid.covers slot).mp fills.1).1

/-- A run of an entry of the code of a class changes nothing but what its calls change and, in the object at
hand, the slots that it is to fill. -/
def ContainerSymbol.Frames (cls : ContainerSymbol) (entry : String × Procedure) : Prop :=
  ∀ (settable : Nat → Nat → Prop) (call : Caller) (args : List Value),
    (∀ symbol args, Confined settable (call symbol args)) →
    (∀ ref, Receives call args (.object ref) entry.2 → ref.skipped = 0) →
    ∀ initialises image, Confined
      (fun id slot => settable id slot ∨
        Receives call args (.object ⟨id, 0⟩) entry.2 ∧ cls.Fills entry.1 slot)
      (callProcedure call initialises image entry.2 args)

theorem ContainerSymbol.frames_of_fills {cls : ContainerSymbol} {entry : String × Procedure}
    (fills : ∀ slot ∈ entry.2.stores, cls.Fills entry.1 slot) : cls.Frames entry := by
  intro settable call args calls whole initialises image
  refine confined_callProcedure (fun symbol args => (calls symbol args).mono fun _ _ => .inl)
    (fun object received slot listed value => confined_writeSlot (fun ref same => .inr ?_) value) initialises image
  subst same
  obtain ⟨id, skipped⟩ := ref
  obtain rfl : skipped = 0 := whole _ received
  exact ⟨received, (Nat.zero_add slot).symm ▸ fills slot listed⟩

/-- Images hold the code of some artifacts, and next to it code that leaves the names of classes alone. -/
def LoadedWith (artifacts : List Artifact) (images : Array Image) : Prop :=
  ∀ image ∈ images, image.artifact ∈ artifacts ∨ image.artifact.SparesNames

/-- Artifacts keep the objects of the classes of a unit. Each entry of their code gives values to the members
that it is to fill; runs keep the size of objects and the names of their classes; and a constructor stores its
arguments in different slots and makes an object with all slots of the class. -/
structure KeepsObjects (S : Symbols) (base : ContainerId) (artifacts : List Artifact) : Prop where
  fills : ∀ artifact ∈ artifacts, ∀ entry ∈ artifact.procedures, ∃ id, base ≤ id ∧
    (∀ slot ∈ entry.2.stores, (S.get id).Fills entry.1 slot) ∧ (S.get id).Frames entry
  names : ∀ images, LoadedWith artifacts images → ∀ fuel target args,
    Confined (fun _ slot => slot ≠ 0) (callTarget images fuel target args)
  makes : ∀ (images : Array Image) (image : Image) (self : Nat), LoadedWith artifacts images →
    images[self]? = some image → image.artifact ∈ artifacts →
    image.target? self Primitive.alloc.symbol = some (.primitive .alloc) →
    ∀ symbol frame className slots fields body,
      image.artifact.procedures.lookup symbol = some (.construct frame className slots fields body) →
      ∃ id, base ≤ id ∧ (S.get id).isClass = true ∧ fields = (S.get id).fieldSlots ∧ fields.Nodup ∧
        ((S.get id).slotCount < slotLimit → ∀ fuel args m object m',
          callTarget images fuel (.procedure self symbol) args m = .ok object m' →
          Makes (S.get id).slotCount (S.get id).name m object m')

namespace Lowering

variable {S : Symbols} {base : ContainerId} {id : ContainerId} {members : List TypedMember}
  {entry : String × Procedure} {artifacts : List Artifact} {program : TypedProgram} {frame className : String}
  {slots : Nat} {fields : List Nat} {body : Code}

theorem Entry.constructor (made : Entry S id members entry)
    (constructs : entry.2 = .construct frame className slots fields body) : (S.get id).isClass = true ∧
      className = (S.get id).name ∧ slots = (S.get id).slotCount ∧ fields = argumentSlots (S.get id) := by
  cases made with
  | construct isClass lowered =>
    cases constructs
    exact ⟨isClass, rfl, rfl, rfl⟩
  | ensure | initialise | strict | lazy | lazySlot | func | method => cases constructs

/-- No code of a unit sets the slot with the name of a class, where objects are laid out. -/
theorem lowerProgram_sparesNames (fits : ∀ item ∈ program.items, item.Fits base S)
    (constructs : ∀ id, base ≤ id → (S.get id).isClass = true → (S.get id).Constructs)
    (lowered : lowerProgram S program = .ok artifacts) : ∀ artifact ∈ artifacts, artifact.SparesNames := by
  intro artifact listed entry present slot sets
  obtain ⟨id, members, within, made⟩ := lowerProgram_entries fits lowered artifact listed entry present
  obtain ⟨isClass, filled⟩ := made.fills within (constructs id within.new) slot sets
  exact (constructs id within.new isClass).laidOut.fills_ne_zero filled

/-- The code of a unit keeps its objects if they are laid out. -/
theorem lowerProgram_keepsObjects (fits : ∀ item ∈ program.items, item.Fits base S)
    (constructs : ∀ id, base ≤ id → (S.get id).isClass = true → (S.get id).Constructs)
    (lowered : lowerProgram S program = .ok artifacts) :
    KeepsObjects S base artifacts := by
  have entries := lowerProgram_entries fits lowered
  have spares := lowerProgram_sparesNames fits constructs lowered
  have loaded : ∀ images, LoadedWith artifacts images → ∀ image ∈ images, image.artifact.SparesNames :=
    fun images beside image listed => (beside image listed).elim (spares image.artifact) fun spared => spared
  refine ⟨?_, fun images beside => confined_callTarget (loaded images beside), ?_⟩
  · intro artifact listed entry present
    obtain ⟨id, members, within, made⟩ := entries artifact listed entry present
    have fills := fun slot sets => (made.fills within (constructs id within.new) slot sets).2
    exact ⟨id, within.new, fills, ContainerSymbol.frames_of_fills fills⟩
  · intro images image self beside found own allocates symbol frame className slots fields body named
    obtain ⟨id, members, within, made⟩ := entries image.artifact own _ (mem_of_lookup named)
    obtain ⟨isClass, rfl, rfl, rfl⟩ := made.constructor rfl
    have whole := constructs id within.new isClass
    refine ⟨id, within.new, isClass, whole.stores, whole.stores_nodup, fun held fuel args m object m' run => ?_⟩
    exact callTarget_makes (loaded images beside) found named allocates whole.laidOut.named held run

end Lowering

theorem Compiler.compile_sparesNames {compiler after : Compiler} {source : String} {emission : Emission}
    {unit : CompiledUnit} (compiled : compiler.compileWith source emission = (.ok unit, after)) :
    ∀ artifact ∈ unit.artifacts, artifact.SparesNames := by
  obtain ⟨program, checked, bench, -, accepted, finished, -⟩ := compile_ok compiled
  exact Lowering.lowerProgram_sparesNames (typecheck_fits accepted).items
    (fun id new isClass => typecheck_constructs accepted new isClass) (finish_ok finished).1

/-- Whatever a session calls, objects keep their size and the name of their class. -/
theorem Session.Reached.confined {session : Session} (reached : session.Reached) (fuel : Nat)
    (target : Target) (args : List Value) :
    Confined (fun _ slot => slot ≠ 0) (callTarget session.registry.images fuel target args) :=
  confined_callTarget (reached.artifacts fun compiled => Compiler.compile_sparesNames compiled) fuel target args

/-- The classes of an accepted unit lay their objects out: every member has slots of its own, as its kind stores,
and together they have all slots behind the name of the class. Code of the unit gives values to the members
that it is to fill and keeps all objects. Where imports bring objects in place, the unit has code, and what its
code reads and sets in an object at hand are slots of that object. -/
theorem objects_laid_out {services : Services σ} {table : SymbolTable} {host host' : σ} {program : Program}
    {unit : Typing.CheckedUnit} (accepted : typecheck services table host program = (.ok unit, host')) :
    (∀ id, table.symbols.containers.size ≤ id → (unit.symbols.get id).isClass = true →
      (unit.symbols.get id).Constructs ∧ ∀ slot, (unit.symbols.get id).HasSlot slot ↔
        1 ≤ slot ∧ slot < (unit.symbols.get id).slotCount) ∧
    (∀ artifacts, Lowering.lowerProgram unit.symbols unit.program = .ok artifacts →
      KeepsObjects unit.symbols table.symbols.containers.size artifacts) ∧
    (unit.program.BorrowsInPlace unit.symbols →
      ∃ artifacts, Lowering.lowerProgram unit.symbols unit.program = .ok artifacts ∧
        ∀ artifact ∈ artifacts, ∀ entry ∈ artifact.procedures,
          ∃ id, table.symbols.containers.size ≤ id ∧ entry.2.OnOwnOf (unit.symbols.get id)) := by
  have fits := typecheck_fits accepted
  have constructs : ∀ id, table.symbols.containers.size ≤ id → (unit.symbols.get id).isClass = true →
      (unit.symbols.get id).Constructs := fun id new isClass => typecheck_constructs accepted new isClass
  refine ⟨fun id new isClass => ⟨constructs id new isClass, (constructs id new isClass).laidOut.hasSlot_iff⟩,
    fun artifacts lowered => Lowering.lowerProgram_keepsObjects fits.items constructs lowered,
    fun borrows => fits.code (receiversInPlace_of_borrows fits borrows)⟩

/-- The check that the class with a number in a unit has the given slots, and that imports of the unit bring
objects in place. -/
def laysOut (source : String) (id : ContainerId) (slots : List Nat) : Bool :=
  match Compiler.readSource source with
  | .ok program =>
    match typecheck {} {} () program with
    | (.ok unit, _) => (unit.symbols.get id).isClass && decide ((unit.symbols.get id).slots = slots) &&
        decide (unit.program.BorrowsInPlace unit.symbols)
    | _ => false
  | _ => false

/-- Two parameters, a strict value and a lazy one take five slots, and a function takes none. -/
theorem objects_laid_out_of_mixed_members : ∃ (program : Program) (unit : Typing.CheckedUnit),
    Compiler.readSource
      "class B \x7b val x = 1 \x7d\nclass A(p: B, q: Int) \x7b\nimport p.x\nval s = q\nlazy val y = x + 1\ndef f(): Int = s + y\n\x7d" =
      .ok program ∧
    typecheck {} {} () program = (.ok unit, ()) ∧
    (unit.symbols.get 1).slots = [1, 2, 3, 4, 5] ∧ (unit.symbols.get 1).Constructs ∧
    ∃ artifacts, Lowering.lowerProgram unit.symbols unit.program = .ok artifacts ∧
      KeepsObjects unit.symbols 0 artifacts ∧
      ∀ artifact ∈ artifacts, ∀ entry ∈ artifact.procedures,
        ∃ id, entry.2.OnOwnOf (unit.symbols.get id) := by
  have run : laysOut
      "class B \x7b val x = 1 \x7d\nclass A(p: B, q: Int) \x7b\nimport p.x\nval s = q\nlazy val y = x + 1\ndef f(): Int = s + y\n\x7d"
      1 [1, 2, 3, 4, 5] = true := by decide +kernel
  unfold laysOut at run
  split at run
  · rename_i program parsed
    split at run
    · rename_i unit host accepted
      simp only [Bool.and_eq_true, decide_eq_true_eq] at run
      obtain ⟨⟨isClass, slots⟩, borrows⟩ := run
      obtain ⟨classes, keeps, coded⟩ := objects_laid_out accepted
      obtain ⟨artifacts, lowered, own⟩ := coded borrows
      refine ⟨program, unit, parsed, accepted, slots, (classes 1 (Nat.zero_le 1) isClass).1, artifacts, lowered,
        keeps artifacts lowered, fun artifact listed entry made => ?_⟩
      obtain ⟨id, -, onOwn⟩ := own artifact listed entry made
      exact ⟨id, onOwn⟩
    · cases run
  · cases run

/-- The method that a procedure is, if it picks something from a slot of the object at hand, and that slot. -/
def Procedure.picks? : Procedure → Option (String × Nat)
  | .method frame _ (.slot (.slot .self slot) _) => some (frame, slot)
  | _ => none

/-- The check that the code of a class picks from the objects of that class something behind their end. -/
def strays (source : String) (id : ContainerId) : Bool :=
  match Compiler.readSource source with
  | .ok program =>
    match typecheck {} {} () program with
    | (.ok unit, _) =>
      match Lowering.lowerProgram unit.symbols unit.program with
      | .ok artifacts => (unit.symbols.get id).isClass &&
          artifacts.any fun artifact => artifact.procedures.any fun entry =>
            match entry.2.picks? with
            | some (frame, slot) => decide (∃ member ∈ (unit.symbols.get id).members, frame = member.symbol) &&
                decide ((unit.symbols.get id).slotCount ≤ slot)
            | none => false
      | .error _ => false
    | _ => false
  | _ => false

/-- A class nested in a class uses what the outer class imports from an object that it has: the unit is accepted,
and a method of the nested class reads behind the end of its own objects. -/
theorem borrowed_slot_out_of_object : ∃ (program : Program) (unit : Typing.CheckedUnit)
    (artifacts : List Artifact),
    Compiler.readSource
      "class B \x7b\nval x = 1\n\x7d\nclass A(p: B) \x7b\nimport p.x\nclass M \x7b\ndef f(): Int = x\n\x7d\n\x7d\n" =
      .ok program ∧
    typecheck {} {} () program = (.ok unit, ()) ∧
    Lowering.lowerProgram unit.symbols unit.program = .ok artifacts ∧
    (unit.symbols.get 2).isClass = true ∧
    ∃ artifact ∈ artifacts, ∃ entry ∈ artifact.procedures, ∃ member ∈ (unit.symbols.get 2).members,
      ∃ params slot picked, entry.2 = .method member.symbol params (.slot (.slot .self slot) picked) ∧
        (unit.symbols.get 2).slotCount ≤ slot := by
  have run : strays
      "class B \x7b\nval x = 1\n\x7d\nclass A(p: B) \x7b\nimport p.x\nclass M \x7b\ndef f(): Int = x\n\x7d\n\x7d\n" 2 =
      true := by decide +kernel
  unfold strays at run
  split at run
  · rename_i program parsed
    split at run
    · rename_i unit host accepted
      split at run
      · rename_i artifacts lowered
        simp only [Bool.and_eq_true, List.any_eq_true] at run
        obtain ⟨isClass, artifact, listed, entry, made, found⟩ := run
        refine ⟨program, unit, artifacts, parsed, accepted, lowered, isClass, artifact, listed, entry, made,
          ?_⟩
        split at found
        · rename_i frame slot picks
          simp only [Bool.and_eq_true, decide_eq_true_eq] at found
          obtain ⟨⟨member, own, rfl⟩, behind⟩ := found
          refine ⟨member, own, ?_⟩
          unfold Procedure.picks? at picks
          split at picks
          · cases picks
            exact ⟨_, _, _, ‹_›, behind⟩
          · cases picks
        · cases found
      · cases run
    · cases run
  · cases run

end ScriptShell
