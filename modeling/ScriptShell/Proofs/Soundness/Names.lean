import ScriptShell.Compiler
import ScriptShell.Proofs.Soundness.Loading

/-! The names of typed code. Where names stand for one thing, a symbol takes one number of arguments: that of
its signatures, or that of the primitive function it names. Typed code calls every symbol with that many, and
procedures have as many parameters as their signatures. So a function is declared as it is defined and called,
wherever its name is first come to, and the verifier has nothing against the code. -/
namespace ScriptShell

/-- A symbol takes a number of arguments: something is declared or generated under it that does, or it names a
primitive function that does. -/
def Symbols.Takes (S : Symbols) (symbol : String) (count : Nat) : Prop :=
  (∃ signature, (symbol, signature) ∈ S.procedures ++ S.foreigns ∧ signature.params.length = count) ∨
    ∃ primitive : Primitive, primitive.symbol = symbol ∧ primitive.arity = count

/-- A primitive function is called with as many arguments as it takes. -/
theorem Primitive.Accepts.length {primitive : Primitive} {signature : Signature}
    (accepts : primitive.Accepts signature) : signature.params.length = primitive.arity := by
  cases primitive with
  | initModule | alloc => exact accepts.elim
  | showObj =>
    obtain ⟨cls, rfl⟩ := accepts
    rfl
  | exit | fail =>
    have params : signature.params = _ := accepts
    rw [params]
    rfl
  | enter | println | leave | concat | strEq | intToStr | showInt | showStr | div | mod =>
    have own : signature = _ := accepts
    rw [own]
    rfl

namespace Symbols

variable {S : Symbols} {symbol : String} {signature : Signature}

theorem Calls.takes (called : S.Calls symbol signature) : S.Takes symbol signature.params.length := by
  obtain own | foreign | ⟨primitive, named, accepts⟩ := called
  · exact .inl ⟨signature, List.mem_append_left _ own, rfl⟩
  · exact .inl ⟨signature, List.mem_append_right _ foreign, rfl⟩
  · exact .inr ⟨primitive, named, accepts.length.symm⟩

theorem takes_primitive (primitive : Primitive) : S.Takes primitive.symbol primitive.arity :=
  .inr ⟨primitive, rfl, rfl⟩

/-- Something that is declared or generated under the symbol of a primitive function takes what that takes. -/
theorem takes_named (coherent : S.Coherent) (foreigns : S.ForeignsMatch) {primitive : Primitive}
    (listed : (primitive.symbol, signature) ∈ S.procedures ++ S.foreigns) :
    signature.params.length = primitive.arity := by
  obtain own | foreign := List.mem_append.mp listed
  · exact absurd rfl (coherent.primitives _ own primitive primitive.mem_all)
  · exact (foreigns _ foreign primitive rfl).length

/-- A symbol takes one number of arguments. -/
theorem Takes.unique (coherent : S.Coherent) (foreigns : S.ForeignsMatch) {one two : Nat}
    (first : S.Takes symbol one) (second : S.Takes symbol two) : one = two := by
  obtain ⟨own, listed, rfl⟩ | ⟨primitive, rfl, rfl⟩ := first
  · obtain ⟨other, listed', rfl⟩ | ⟨primitive, rfl, rfl⟩ := second
    · obtain given | given := List.mem_append.mp listed
      · have same : other = own := coherent.procedures _ given _ listed' rfl
        rw [same]
      · obtain given' | given' := List.mem_append.mp listed'
        · have same : own = other := coherent.procedures _ given' _ listed rfl
          rw [same]
        · exact coherent.foreigns _ given' _ given rfl
    · exact takes_named coherent foreigns listed
  · obtain ⟨other, listed', rfl⟩ | ⟨another, same, rfl⟩ := second
    · exact (takes_named coherent foreigns listed').symm
    · rw [Primitive.symbol_injective same]

end Symbols

variable {S : Symbols}

theorem Code.HaveTypes.length {locals : List (LocalId × Ty)} {args : List Code} {types : List Ty}
    (typed : Code.HaveTypes S locals args types) : args.length = types.length := by
  induction args generalizing types with
  | nil =>
    obtain rfl : types = [] := typed
    rfl
  | cons code rest ih =>
    obtain ⟨first, others, rfl, -, typed⟩ := typed
    rw [List.length_cons, List.length_cons, ih typed]

/-- All calls of a list pass what the symbols take. -/
def Symbols.TakeAll (S : Symbols) (applies : List (String × Nat)) : Prop :=
  ∀ apply ∈ applies, S.Takes apply.1 apply.2

theorem Symbols.TakeAll.append {first rest : List (String × Nat)} (one : S.TakeAll first) (two : S.TakeAll rest) :
    S.TakeAll (first ++ rest) :=
  List.forall_mem_append.mpr ⟨one, two⟩

mutual

/-- Typed code calls every symbol with as many arguments as that takes. -/
theorem Code.HasType.takes : ∀ {code : Code} {locals : List (LocalId × Ty)} {type : Ty},
    code.HasType S locals type → S.TakeAll code.applies
  | .word _, _, _, _ | .text _ _, _, _, _ | .bound _, _, _, _ | .cell _, _, _, _ => nofun
  | .self, _, _, typed | .slot _ _, _, _, typed => typed.elim
  | .call symbol args, _, _, typed => by
    obtain ⟨params, called, operands⟩ := typed
    refine (Code.HaveTypes.takes operands).append (List.forall_mem_singleton.mpr ?_)
    rw [show args.length = params.length from operands.length]
    exact called.takes
  | .op _ _ _, _, _, typed => by
    obtain ⟨-, operand, -, -, left, right⟩ := typed
    exact left.takes.append right.takes
  | .not _, _, _, typed => typed.2.takes
  | .both _ _, _, _, typed | .either _ _, _, _, typed => typed.2.1.takes.append typed.2.2.takes
  | .cond _ _ _, _, _, typed => (typed.1.takes.append typed.2.1.takes).append typed.2.2.takes
  | .block _, _, _, typed => CodeStep.HaveType.takes typed

theorem Code.HaveTypes.takes : ∀ {args : List Code} {locals : List (LocalId × Ty)} {types : List Ty},
    Code.HaveTypes S locals args types → S.TakeAll (Code.appliesAll args)
  | [], _, _, _ => nofun
  | _ :: _, _, _, typed => by
    obtain ⟨first, others, -, one, rest⟩ := typed
    exact one.takes.append (Code.HaveTypes.takes rest)

theorem CodeStep.HaveType.takes : ∀ {steps : List CodeStep} {locals : List (LocalId × Ty)} {last type : Ty},
    CodeStep.HaveType S locals last steps type → S.TakeAll (CodeStep.appliesAll steps)
  | [], _, _, _, _ => nofun
  | .run _ :: _, _, _, _, typed | .bind _ _ :: _, _, _, _, typed => by
    obtain ⟨own, one, rest⟩ := typed
    exact one.takes.append (CodeStep.HaveType.takes rest)
  | .setCell _ _ :: _, _, _, _, typed => by
    obtain ⟨own, -, one, rest⟩ := typed
    exact one.takes.append (CodeStep.HaveType.takes rest)
  | .setSlot _ _ :: _, _, _, _, typed => typed.elim

end

namespace Procedure

variable {procedure : Procedure} {symbol : String} {signature : Signature}

theorem takes_framed {applies : List (String × Nat)} (own : S.TakeAll applies) : S.TakeAll (framed applies) :=
  List.forall_mem_cons.mpr ⟨Symbols.takes_primitive .enter,
    own.append (List.forall_mem_singleton.mpr (Symbols.takes_primitive .leave))⟩

/-- What a procedure comes to takes as many arguments as it is come to with, itself included. -/
theorem HasSignature.takes (typed : procedure.HasSignature S signature)
    (listed : (symbol, signature) ∈ S.procedures) : S.TakeAll (procedure.names symbol) := by
  have defined : S.Takes symbol signature.params.length := Symbols.Calls.takes (.inl listed)
  cases procedure with
  | function frame params body =>
    obtain ⟨-, count, typed⟩ := typed
    have calls : S.TakeAll (applies (.function frame params body)) := by
      cases frame with
      | none => exact typed.takes
      | some frame => exact takes_framed typed.takes
    rw [← count] at defined
    exact List.forall_mem_cons.mpr ⟨defined, calls⟩
  | ensure owner frame body =>
    obtain ⟨rfl, init, -, type, typed⟩ := typed
    have initialiser : S.Takes frame 0 := Symbols.Calls.takes (.inl init)
    refine List.forall_mem_cons.mpr ⟨initialiser, (takes_framed typed.takes).append ?_⟩
    exact List.forall_mem_cons.mpr
      ⟨defined, List.forall_mem_singleton.mpr (Symbols.takes_primitive .initModule)⟩
  | method _ _ _ | construct _ _ _ _ _ => exact typed.elim

/-- The calls of a procedure are among what it comes to. -/
theorem applies_names : procedure.applies ⊆ procedure.names symbol := by
  cases procedure with
  | function _ _ _ | method _ _ _ | construct _ _ _ _ _ => exact List.subset_cons_self _ _
  | ensure owner frame body => exact List.subset_cons_of_subset _ (List.subset_append_left _ _)

end Procedure

namespace Artifact

variable {artifact : Artifact}

/-- The procedures of an artifact have signatures. -/
def Signed (S : Symbols) (artifact : Artifact) : Prop :=
  ∀ entry ∈ artifact.procedures, ∃ signature, (entry.1, signature) ∈ S.procedures ∧ entry.2.HasSignature S signature

theorem Signed.takes (signed : artifact.Signed S) : S.TakeAll artifact.names := by
  intro apply listed
  obtain ⟨entry, present, named⟩ := List.mem_flatMap.mp listed
  obtain ⟨signature, given, typed⟩ := signed entry present
  exact typed.takes given apply named

/-- A function is declared with as many parameters as it takes wherever it is come to. -/
theorem Signed.declared (signed : artifact.Signed S) (coherent : S.Coherent) (foreigns : S.ForeignsMatch)
    {entry : String × Procedure} (present : entry ∈ artifact.procedures) {apply : String × Nat}
    (named : apply ∈ entry.2.names entry.1) : artifact.names.lookup apply.1 = some apply.2 := by
  have listed : apply ∈ artifact.names := List.mem_flatMap.mpr ⟨entry, present, named⟩
  cases found : artifact.names.lookup apply.1 with
  | none =>
    have absent := List.lookup_eq_none_iff.mp found apply listed
    simp at absent
  | some count =>
    have first : S.Takes apply.1 count := signed.takes _ (mem_of_lookup found)
    rw [first.unique coherent foreigns (signed.takes apply listed)]

/-- All calls of an artifact whose procedures have signatures fit. -/
theorem Signed.fits (signed : artifact.Signed S) (coherent : S.Coherent) (foreigns : S.ForeignsMatch) :
    artifact.fits = true := by
  refine List.all_eq_true.mpr fun entry present => List.all_eq_true.mpr fun apply called => ?_
  have declared := signed.declared coherent foreigns present (Procedure.applies_names called)
  exact Bool.or_eq_true_iff.mpr (.inl (decide_eq_true declared))

/-- No function of it lacks a parameter. -/
theorem Signed.unbound? (signed : artifact.Signed S) (coherent : S.Coherent) (foreigns : S.ForeignsMatch) :
    artifact.unbound? = none := by
  refine List.findSome?_eq_none_iff.mpr fun entry present => ?_
  obtain ⟨symbol, procedure⟩ := entry
  cases procedure with
  | function frame params body =>
    have own : artifact.names.lookup symbol = some params.length :=
      signed.declared coherent foreigns present (List.mem_cons_self : (symbol, params.length) ∈ _)
    simp [own]
  | method _ _ _ | construct _ _ _ _ _ | ensure _ _ _ => rfl

end Artifact

/-- Code whose procedures have signatures passes the verifier. -/
theorem Compiler.verify_signed {unit : CompiledUnit} (signed : ∀ artifact ∈ unit.artifacts, artifact.Signed S)
    (coherent : S.Coherent) (foreigns : S.ForeignsMatch) (source : String) : verify source unit = .ok unit := by
  have bound : unit.artifacts.findSome? Artifact.unbound? = none :=
    List.findSome?_eq_none_iff.mpr fun artifact listed => (signed artifact listed).unbound? coherent foreigns
  have fits : unit.artifacts.find? (!·.fits) = none := by
    refine List.find?_eq_none.mpr fun artifact listed => ?_
    simp [(signed artifact listed).fits coherent foreigns]
  unfold verify
  rw [bound, fits]

end ScriptShell
