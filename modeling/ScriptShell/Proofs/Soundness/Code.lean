import ScriptShell.Code.Lowering
import ScriptShell.Proofs.Typing.Declarations

/-! Typed code. Code of modules has types of its own: every symbol that it calls has a signature, every
cell a type, and operations stand only on values of their kind. The signatures and cells come from the
symbols of the modules. They are coherent if a name stands for one thing, or for things of one type, which is
so unless a member is named like something generated, or two foreign functions of one name are declared with
different numbers of parameters. -/
namespace ScriptShell

/-- What a symbol is called with, and what the call gives. -/
structure Signature where
  params : List Ty
  result : Ty
deriving Repr, DecidableEq

/-- The signature of a function. -/
def MemberSymbol.signature (member : MemberSymbol) : Signature :=
  ⟨member.params.map (·.type), member.type⟩

/-- The signatures that a primitive function can be called with. Those that do not return can be said
to give anything. -/
def Primitive.Accepts : Primitive → Signature → Prop
  | .enter, signature | .println, signature => signature = ⟨[.str], .unit⟩
  | .leave, signature => signature = ⟨[], .unit⟩
  | .concat, signature => signature = ⟨[.str, .str], .str⟩
  | .strEq, signature => signature = ⟨[.str, .str], .int⟩
  | .intToStr, signature | .showInt, signature => signature = ⟨[.int], .str⟩
  | .showStr, signature => signature = ⟨[.str], .str⟩
  | .showObj, signature => ∃ cls, signature = ⟨[.object cls], .str⟩
  | .div, signature | .mod, signature => signature = ⟨[.int, .int], .int⟩
  | .exit, signature => signature.params = []
  | .fail, signature => signature.params = [.str]
  | .initModule, _ | .alloc, _ => False

namespace Symbols

/-- The signatures of the procedures that modules become. -/
def procedures (S : Symbols) : List (String × Signature) :=
  S.containers.toList.flatMap fun container =>
    (Lowering.ensureSymbol container.qualified, ⟨[], .unit⟩) ::
      (Lowering.initSymbol container.qualified, ⟨[], .unit⟩) ::
      container.members.filterMap fun member =>
        match member.kind with
        | .val | .lazyVal => some (Lowering.getter member.symbol, ⟨[], member.type⟩)
        | .func => some (member.symbol, member.signature)
        | .inlineVal | .foreign | .container => none

/-- The signatures of the foreign functions that modules declare. -/
def foreigns (S : Symbols) : List (String × Signature) :=
  S.containers.toList.flatMap fun container =>
    container.members.filterMap fun member =>
      if member.kind = .foreign then some (member.symbol, member.signature) else none

/-- The types of the cells of modules: how far their initialisation is, values, and flags of lazy values. -/
def cells (S : Symbols) : List (String × Ty) :=
  S.containers.toList.flatMap fun container =>
    (stateSymbol container.qualified, .int) :: container.members.flatMap fun member =>
      match member.kind with
      | .val => [(member.symbol, member.type)]
      | .lazyVal => [(member.symbol, member.type), (Lowering.doneFlag member.symbol, .int)]
      | .inlineVal | .func | .foreign | .container => []

/-- What code may call a symbol with. -/
def Calls (S : Symbols) (symbol : String) (signature : Signature) : Prop :=
  (symbol, signature) ∈ S.procedures ∨ (symbol, signature) ∈ S.foreigns ∨
    ∃ primitive : Primitive, primitive.symbol = symbol ∧ primitive.Accepts signature

/-- Names stand for one thing, or for things of one type. -/
structure Coherent (S : Symbols) : Prop where
  procedures : ∀ own ∈ S.procedures, ∀ other ∈ S.procedures ++ S.foreigns, other.1 = own.1 → other.2 = own.2
  primitives : ∀ own ∈ S.procedures, ∀ primitive ∈ Primitive.all, primitive.symbol ≠ own.1
  foreigns : ∀ own ∈ S.foreigns, ∀ other ∈ S.foreigns, other.1 = own.1 →
    other.2.params.length = own.2.params.length
  cells : ∀ own ∈ S.cells, ∀ other ∈ S.cells, other.1 = own.1 → other.2 = own.2
  /-- Functions and cells share one space of names too. -/
  apart : ∀ own ∈ S.procedures, ∀ cell ∈ S.cells, cell.1 ≠ own.1

instance (S : Symbols) : Decidable S.Coherent :=
  decidable_of_iff (_ ∧ _ ∧ _ ∧ _ ∧ _)
    ⟨fun ⟨procedures, primitives, foreigns, cells, apart⟩ => ⟨procedures, primitives, foreigns, cells, apart⟩,
      fun ⟨procedures, primitives, foreigns, cells, apart⟩ => ⟨procedures, primitives, foreigns, cells, apart⟩⟩

/-- The containers of one table stand unchanged in a later one. -/
structure Extends (S T : Symbols) : Prop where
  size : S.containers.size ≤ T.containers.size
  same : ∀ id < S.containers.size, T.get id = S.get id

variable {S T U : Symbols}

theorem Extends.refl (S : Symbols) : S.Extends S := ⟨Nat.le_refl _, fun _ _ => rfl⟩

theorem Extends.trans (first : S.Extends T) (second : T.Extends U) : S.Extends U where
  size := Nat.le_trans first.size second.size
  same id small :=
    (second.same id (Nat.lt_of_lt_of_le small first.size)).trans (first.same id small)

theorem get_mem {id : ContainerId} (inside : id < S.containers.size) : S.get id ∈ S.containers.toList := by
  simp [get, Array.getD_eq_getD_getElem?, inside]

theorem Extends.mem (grows : S.Extends T) (listed : container ∈ S.containers.toList) :
    container ∈ T.containers.toList := by
  obtain ⟨id, inside, rfl⟩ := List.mem_iff_getElem.mp listed
  have small : id < S.containers.size := by simpa using inside
  have same : S.get id = S.containers.toList[id] := by
    simp [get, Array.getD_eq_getD_getElem?, small]
  rw [← same, ← grows.same id small]
  exact get_mem (Nat.lt_of_lt_of_le small grows.size)

theorem Extends.flatMap {f : ContainerSymbol → List α} (grows : S.Extends T)
    (listed : x ∈ S.containers.toList.flatMap f) : x ∈ T.containers.toList.flatMap f := by
  obtain ⟨container, present, made⟩ := List.mem_flatMap.mp listed
  exact List.mem_flatMap.mpr ⟨container, grows.mem present, made⟩

theorem Extends.calls (grows : S.Extends T) (called : S.Calls symbol signature) :
    T.Calls symbol signature :=
  called.imp grows.flatMap (.imp grows.flatMap id)

end Symbols

mutual

/-- Code has a type, where locals have the given types. -/
def Code.HasType (S : Symbols) (locals : List (LocalId × Ty)) : Code → Ty → Prop
  | .word value, type => type = .int ∨ value = 0
  | .text _ _, type => type = .str
  | .bound id, type => locals.lookup id = some type
  | .cell symbol, type => (symbol, type) ∈ S.cells
  | .call symbol args, type => ∃ params, S.Calls symbol ⟨params, type⟩ ∧ Code.HaveTypes S locals args params
  | .op op left right, type => type = .int ∧ ∃ operand : Ty, operand ≠ .str ∧
      (op = .equal ∨ op = .different ∨ operand = .int) ∧
      left.HasType S locals operand ∧ right.HasType S locals operand
  | .not operand, type => type = .int ∧ operand.HasType S locals .int
  | .both left right, type | .either left right, type =>
    type = .int ∧ left.HasType S locals .int ∧ right.HasType S locals .int
  | .cond condition thenBranch elseBranch, type => condition.HasType S locals .int ∧
      thenBranch.HasType S locals type ∧ elseBranch.HasType S locals type
  | .block body, type => CodeStep.HaveType S locals .unit body type
  | .self, _ | .slot _ _, _ => False

def Code.HaveTypes (S : Symbols) (locals : List (LocalId × Ty)) : List Code → List Ty → Prop
  | [], types => types = []
  | code :: rest, types => ∃ first others, types = first :: others ∧
      code.HasType S locals first ∧ Code.HaveTypes S locals rest others

/-- The steps of a block, the last of which so far has the type `last`. -/
def CodeStep.HaveType (S : Symbols) (locals : List (LocalId × Ty)) (last : Ty) :
    List CodeStep → Ty → Prop
  | [], type => type = last
  | .run value :: rest, type => ∃ own, value.HasType S locals own ∧
      CodeStep.HaveType S locals own rest type
  | .bind id value :: rest, type => ∃ own, value.HasType S locals own ∧
      CodeStep.HaveType S ((id, own) :: locals) .unit rest type
  | .setCell symbol value :: rest, type => ∃ own, (symbol, own) ∈ S.cells ∧
      value.HasType S locals own ∧ CodeStep.HaveType S locals .unit rest type
  | .setSlot _ _ :: _, _ => False

end

/-- A procedure of a module has a signature. -/
def Procedure.HasSignature (S : Symbols) (signature : Signature) : Procedure → Prop
  | .function _ params body => params.Nodup ∧ params.length = signature.params.length ∧
      body.HasType S (params.zip signature.params) signature.result
  | .ensure owner frame body => signature = ⟨[], .unit⟩ ∧ (frame, signature) ∈ S.procedures ∧
      (stateSymbol owner, .int) ∈ S.cells ∧ ∃ type, body.HasType S [] type
  | .method _ _ _ | .construct _ _ _ _ _ => False

mutual

theorem Code.HasType.extends {S T : Symbols} (grows : S.Extends T) :
    ∀ {code : Code} {locals : List (LocalId × Ty)} {type : Ty},
      code.HasType S locals type → code.HasType T locals type
  | .word _, _, _, typed | .text _ _, _, _, typed | .bound _, _, _, typed => typed
  | .cell _, _, _, typed => grows.flatMap typed
  | .call _ _, _, _, typed => by
    obtain ⟨params, called, args⟩ := typed
    exact ⟨params, grows.calls called, Code.HaveTypes.extends grows args⟩
  | .op _ _ _, _, _, typed => by
    obtain ⟨word, operand, noText, kind, left, right⟩ := typed
    exact ⟨word, operand, noText, kind, left.extends grows, right.extends grows⟩
  | .not _, _, _, typed => ⟨typed.1, typed.2.extends grows⟩
  | .both _ _, _, _, typed | .either _ _, _, _, typed =>
    ⟨typed.1, typed.2.1.extends grows, typed.2.2.extends grows⟩
  | .cond _ _ _, _, _, typed =>
    ⟨typed.1.extends grows, typed.2.1.extends grows, typed.2.2.extends grows⟩
  | .block _, _, _, typed => CodeStep.HaveType.extends grows typed
  | .self, _, _, typed | .slot _ _, _, _, typed => typed.elim

theorem Code.HaveTypes.extends {S T : Symbols} (grows : S.Extends T) :
    ∀ {args : List Code} {locals : List (LocalId × Ty)} {types : List Ty},
      Code.HaveTypes S locals args types → Code.HaveTypes T locals args types
  | [], _, _, typed => typed
  | _ :: _, _, _, typed => by
    obtain ⟨first, others, rfl, one, rest⟩ := typed
    exact ⟨first, others, rfl, one.extends grows, Code.HaveTypes.extends grows rest⟩

theorem CodeStep.HaveType.extends {S T : Symbols} (grows : S.Extends T) :
    ∀ {steps : List CodeStep} {locals : List (LocalId × Ty)} {last type : Ty},
      CodeStep.HaveType S locals last steps type → CodeStep.HaveType T locals last steps type
  | [], _, _, _, typed => typed
  | .run _ :: _, _, _, _, typed | .bind _ _ :: _, _, _, _, typed => by
    obtain ⟨own, one, rest⟩ := typed
    exact ⟨own, one.extends grows, CodeStep.HaveType.extends grows rest⟩
  | .setCell _ _ :: _, _, _, _, typed => by
    obtain ⟨own, cell, one, rest⟩ := typed
    exact ⟨own, grows.flatMap cell, one.extends grows, CodeStep.HaveType.extends grows rest⟩
  | .setSlot _ _ :: _, _, _, _, typed => typed.elim

end

theorem Procedure.HasSignature.extends {S T : Symbols} (grows : S.Extends T) {procedure : Procedure}
    (typed : procedure.HasSignature S signature) : procedure.HasSignature T signature := by
  cases procedure with
  | function _ _ _ => exact ⟨typed.1, typed.2.1, typed.2.2.extends grows⟩
  | ensure _ _ _ =>
    obtain ⟨same, init, state, type, body⟩ := typed
    exact ⟨same, grows.flatMap init, grows.flatMap state, type, body.extends grows⟩
  | method _ _ _ | construct _ _ _ _ _ => exact typed.elim

end ScriptShell
