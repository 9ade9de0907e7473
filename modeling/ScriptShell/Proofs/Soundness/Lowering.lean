import ScriptShell.Proofs.Soundness.Code
import ScriptShell.Proofs.Lowering.Units
import Mathlib.Data.List.Nodup

/-! Lowering keeps types. The code of a well-typed expression of modules has the type of the expression,
and a procedure that comes from a member has the signature of that member. -/
namespace ScriptShell

/-- The symbols of modules whose inline values are numbers. -/
structure Symbols.AllModules (S : Symbols) : Prop where
  modular : ∀ id, Typing.Modular S id
  worded : S.Worded
  differ : S.NamesDiffer

namespace Lowering

variable {S : Symbols} {locals : List (LocalId × Ty)} {scope : Scope} {place : Place}

/-- All locals in sight are listed with their types. -/
def Covers (locals : List (LocalId × Ty)) (scope : Scope) : Prop :=
  ∀ frame ∈ scope, ∀ name found, frame.locals.lookup name = some found →
    locals.lookup found.id = some found.type

theorem Covers.atImport {frame : Frame} (covers : Covers locals scope)
    (around : frame :: outer <:+ scope) : Covers locals ({ frame with imports := earlier } :: outer) := by
  intro own listed
  obtain rfl | listed := List.mem_cons.mp listed
  · exact covers frame (around.subset List.mem_cons_self)
  · exact covers own (around.subset (List.mem_cons_of_mem _ listed))

theorem Covers.enter (covers : Covers locals scope) : Covers locals ({ } :: scope) := by
  intro own listed
  obtain rfl | listed := List.mem_cons.mp listed
  · rintro name found ⟨⟩
  · exact covers own listed

/-- A new value hides those of its name and none of another number. -/
theorem Covers.inner {values : List (String × Local)} {id : LocalId}
    (covers : Covers locals ({ locals := values } :: scope))
    (fresh : id ∉ Scope.ids ({ locals := values } :: scope)) (name : String) (type : Ty) :
    Covers ((id, type) :: locals) ({ locals := (name, ⟨id, type⟩) :: values } :: scope) := by
  have kept : ∀ found : Local, found.id ∈ Scope.ids ({ locals := values } :: scope) →
      locals.lookup found.id = some found.type →
      ((id, type) :: locals).lookup found.id = some found.type := by
    intro found visible listed
    have differs : (found.id == id) = false := by
      rw [beq_eq_false_iff_ne]
      rintro same
      exact fresh (same ▸ visible)
    rw [List.lookup_cons, differs]
    exact listed
  intro frame listed own found sought
  obtain rfl | listed := List.mem_cons.mp listed
  · rw [List.lookup_cons] at sought
    cases same : own == name with
    | true =>
      simp only [same, Option.some.injEq] at sought
      subst sought
      simp
    | false =>
      simp only [same] at sought
      exact kept found (mem_ids_of_lookup List.mem_cons_self sought)
        (covers _ List.mem_cons_self own found sought)
  · have listed := List.mem_cons_of_mem { locals := values } listed
    exact kept found (mem_ids_of_lookup listed sought) (covers frame listed own found sought)

end Lowering

namespace Symbols

variable {S : Symbols}

theorem value_procedure (found : S.member? key = some member)
    (kind : member.kind = .val ∨ member.kind = .lazyVal) :
    (Lowering.getter member.symbol, ⟨[], member.type⟩) ∈ S.procedures := by
  have listed : member ∈ (S.get key.owner).members := List.mem_of_find?_eq_some found
  refine List.mem_flatMap.mpr ⟨_, get_mem (inside_of_member? found), ?_⟩
  refine List.mem_cons_of_mem _ (List.mem_cons_of_mem _ (List.mem_filterMap.mpr ⟨member, listed, ?_⟩))
  obtain kind | kind := kind <;> simp [kind]

theorem func_procedure (found : S.member? key = some member) (kind : member.kind = .func) :
    (member.symbol, member.signature) ∈ S.procedures := by
  have listed : member ∈ (S.get key.owner).members := List.mem_of_find?_eq_some found
  refine List.mem_flatMap.mpr ⟨_, get_mem (inside_of_member? found), ?_⟩
  refine List.mem_cons_of_mem _ (List.mem_cons_of_mem _ ?_)
  exact List.mem_filterMap.mpr ⟨member, listed, by simp [kind]⟩

theorem calls_callable (found : S.member? key = some member)
    (kind : member.kind.isCallable = true) : S.Calls member.symbol member.signature := by
  cases own : member.kind with
  | func => exact .inl (func_procedure found own)
  | foreign =>
    have listed : member ∈ (S.get key.owner).members := List.mem_of_find?_eq_some found
    refine .inr (.inl (List.mem_flatMap.mpr ⟨_, get_mem (inside_of_member? found), ?_⟩))
    exact List.mem_filterMap.mpr ⟨member, listed, by simp [own]⟩
  | val | lazyVal | inlineVal | container => simp [own, MemberKind.isCallable] at kind

theorem calls_ensure {id : ContainerId} (inside : id < S.containers.size) :
    S.Calls (Lowering.ensureSymbol (S.get id).qualified) ⟨[], .unit⟩ :=
  .inl (List.mem_flatMap.mpr ⟨_, get_mem inside, List.mem_cons_self⟩)

theorem init_procedure {id : ContainerId} (inside : id < S.containers.size) :
    (Lowering.initSymbol (S.get id).qualified, ⟨[], .unit⟩) ∈ S.procedures :=
  List.mem_flatMap.mpr ⟨_, get_mem inside, List.mem_cons_of_mem _ List.mem_cons_self⟩

theorem calls_primitive (primitive : Primitive) (accepts : primitive.Accepts signature) :
    S.Calls primitive.symbol signature :=
  .inr (.inr ⟨primitive, rfl, accepts⟩)

theorem mem_cells (found : S.member? key = some member)
    (kind : member.kind = .val ∨ member.kind = .lazyVal) : (member.symbol, member.type) ∈ S.cells := by
  have listed : member ∈ (S.get key.owner).members := List.mem_of_find?_eq_some found
  refine List.mem_flatMap.mpr ⟨_, get_mem (inside_of_member? found), List.mem_cons_of_mem _ ?_⟩
  refine List.mem_flatMap.mpr ⟨member, listed, ?_⟩
  obtain kind | kind := kind <;> simp [kind]

theorem mem_cells_flag (found : S.member? key = some member) (kind : member.kind = .lazyVal) :
    (Lowering.doneFlag member.symbol, .int) ∈ S.cells := by
  have listed : member ∈ (S.get key.owner).members := List.mem_of_find?_eq_some found
  refine List.mem_flatMap.mpr ⟨_, get_mem (inside_of_member? found), List.mem_cons_of_mem _ ?_⟩
  exact List.mem_flatMap.mpr ⟨member, listed, by simp [kind]⟩

theorem mem_cells_state {id : ContainerId} (inside : id < S.containers.size) :
    (stateSymbol (S.get id).qualified, .int) ∈ S.cells :=
  List.mem_flatMap.mpr ⟨_, get_mem inside, List.mem_cons_self⟩

end Symbols

namespace Lowering

variable {S : Symbols} {locals : List (LocalId × Ty)} {scope : Scope} {place : Place}

theorem moduleMember_hasType (modules : S.AllModules) (found : S.member? key = some member)
    (access : member.Access false type auto) : (moduleMember member).HasType S locals type := by
  have listed : member ∈ (S.get key.owner).members := List.mem_of_find?_eq_some found
  have plain := (modules.modular key.owner).2 member listed
  obtain rfl := access.type_eq plain
  unfold moduleMember
  split
  case h_1 kind => exact (modules.worded key member found kind).symm
  case h_2 kind => exact ⟨[], .inl (Symbols.value_procedure found (.inl kind)), rfl⟩
  case h_3 kind => exact ⟨[], .inl (Symbols.value_procedure found (.inr kind)), rfl⟩
  case h_4 kind | h_5 kind =>
    have callable : member.kind.isCallable = true := by rw [kind]; rfl
    have params := access.params_nil plain callable rfl
    have called := Symbols.calls_callable found callable
    unfold MemberSymbol.signature at called
    rw [params] at called
    exact ⟨[], called, rfl⟩
  case h_6 => exact .inr rfl

theorem lowerAll_haveTypes
    (each : ∀ arg ∈ args, ∀ code, lowerExpr place arg = .ok code → code.HasType S locals arg.type)
    (run : lowerAll place args = .ok codes) :
    Code.HaveTypes S locals codes (args.map (·.type)) := by
  induction args generalizing codes with
  | nil =>
    simp only [lowerAll, Except.ok.injEq] at run
    subst run
    rfl
  | cons arg rest ih =>
    simp only [lowerAll, Except.bind_ok, Except.pure_ok] at run
    obtain ⟨code, lowered, others, more, rfl⟩ := run
    refine ⟨arg.type, rest.map (·.type), rfl, each arg List.mem_cons_self code lowered, ?_⟩
    exact ih (fun arg listed => each arg (List.mem_cons_of_mem _ listed)) more

theorem lowerBody_haveType {values : List (String × Local)} {body : List TypedStmt}
    (each : ∀ part ∈ TypedStmt.parts scope values body, ∀ (place : Place) locals code,
      place.symbols = S → Covers locals part.1 → lowerExpr place part.2 = .ok code →
      code.HasType S locals part.2.type)
    (fresh : TypedStmt.Fresh scope values body) (covers : Covers locals ({ locals := values } :: scope))
    (run : lowerBody place body = .ok steps) (known : place.symbols = S) :
    CodeStep.HaveType S locals last steps (TypedStmt.lastType last body) := by
  induction body generalizing values place locals last steps with
  | nil =>
    simp only [lowerBody, Except.ok.injEq] at run
    subst run
    rfl
  | cons stmt rest ih =>
    cases stmt with
    | val span name ascription id init =>
      simp only [lowerBody, Except.bind_ok, Except.pure_ok] at run
      obtain ⟨code, lowered, others, more, rfl⟩ := run
      refine ⟨init.type, each _ List.mem_cons_self place locals code known covers lowered, ?_⟩
      exact ih (fun part listed => each part (List.mem_cons_of_mem _ listed)) fresh.2
        (covers.inner fresh.1 name init.type) more known
    | expr value =>
      simp only [lowerBody, Except.bind_ok, Except.pure_ok] at run
      obtain ⟨code, lowered, others, more, rfl⟩ := run
      refine ⟨value.type, each _ List.mem_cons_self place locals code known covers lowered, ?_⟩
      exact ih (fun part listed => each part (List.mem_cons_of_mem _ listed)) fresh covers more known

theorem showCode_hasType (value : Ty.isValue type = true) (typed : code.HasType S locals type) :
    (showCode line type code).HasType S locals .str := by
  have shown : ∀ (primitive : Primitive), primitive.Accepts ⟨[type], .str⟩ →
      Code.HasType S locals (.call primitive.symbol [code]) .str := by
    intro primitive accepts
    exact ⟨[type], Symbols.calls_primitive primitive accepts, type, [], rfl, typed, rfl⟩
  cases type with
  | int => exact shown .showInt rfl
  | str => exact shown .showStr rfl
  | object cls => exact shown .showObj ⟨cls, rfl⟩
  | unit => exact ⟨.unit, typed, .str, rfl, rfl⟩
  | error | space _ => cases value

theorem compare_hasType (compares : op = .equal ∨ op = .different)
    (left : Code.HasType S locals one type) (right : Code.HasType S locals two type) :
    (binaryCode op type one two).HasType S locals .int := by
  have texts : type = .str → Code.HasType S locals (.call "kiln_rt_str_eq" [one, two]) .int := by
    rintro rfl
    exact ⟨[.str, .str], Symbols.calls_primitive .strEq rfl, .str, [.str], rfl, left, .str, [], rfl,
      right, rfl⟩
  obtain rfl | rfl := compares
  · by_cases text : type = .str
    · simp only [binaryCode, text, if_true]
      exact texts text
    · simp only [binaryCode, text, if_false]
      exact ⟨rfl, type, text, .inl rfl, left, right⟩
  · by_cases text : type = .str
    · simp only [binaryCode, text, if_true]
      exact ⟨rfl, .int, by simp, .inr (.inr rfl), texts text, .inl rfl⟩
    · simp only [binaryCode, text, if_false]
      exact ⟨rfl, type, text, .inr (.inl rfl), left, right⟩

theorem arithmetic_hasType (other : op ≠ .concat) (left : Code.HasType S locals one .int)
    (right : Code.HasType S locals two .int) :
    (binaryCode op .int one two).HasType S locals .int := by
  have word : ∀ own : CodeOp, Code.HasType S locals (.op own one two) .int :=
    fun own => ⟨rfl, .int, by simp, .inr (.inr rfl), left, right⟩
  have called : ∀ (primitive : Primitive), primitive.Accepts ⟨[.int, .int], .int⟩ →
      Code.HasType S locals (.call primitive.symbol [one, two]) .int := by
    intro primitive accepts
    exact ⟨[.int, .int], Symbols.calls_primitive primitive accepts, .int, [.int], rfl, left, .int, [],
      rfl, right, rfl⟩
  cases op with
  | concat => exact absurd rfl other
  | or | and => exact ⟨rfl, left, right⟩
  | equal => exact compare_hasType (.inl rfl) left right
  | different => exact compare_hasType (.inr rfl) left right
  | div => exact called .div rfl
  | mod => exact called .mod rfl
  | less | lessEqual | greater | greaterEqual | add | sub | mul => exact word _

/-- What a well-typed callee applies, if it names a member. -/
theorem callee_ok (modules : S.AllModules) (typed : WellTyped S callee scope e)
    (known : place.symbols = S) (names : e.calleeMember? = some key) :
    ∃ member, S.member? key = some member ∧ member.type = e.type ∧
      ∀ target, lowerCallee place e = .ok target → target = .function member.symbol := by
  subst known
  have isModule := fun id => (modules.modular id).1
  have plain : ∀ {key member}, place.symbols.member? key = some member → member.isParam = false :=
    fun found => (modules.modular _).2 _ (List.mem_of_find?_eq_some found)
  induction typed with
  | aliased around path ih => exact ih names
  | @member owner name member callee type auto scope span found inner receiver access =>
    simp only [TypedExpr.calleeMember?, Option.some.injEq] at names
    subst names
    refine ⟨member, found, access.type_eq (plain found), fun target run => ?_⟩
    simp only [lowerCallee, isModule, found, Option.getD_some, Bool.false_eq_true, if_false,
      Except.pure_ok] at run
    exact run
  | @select scope target owner name member callee type auto span object holder found inner access =>
    simp only [TypedExpr.calleeMember?, Option.some.injEq] at names
    subst names
    refine ⟨member, found, access.type_eq (plain found), fun target run => ?_⟩
    simp only [lowerCallee, isModule, found, Option.getD_some, Except.pure_ok] at run
    exact run
  | _ => simp [TypedExpr.calleeMember?] at names

theorem conversion_callable {key : MemberKey} (modules : S.AllModules) (conversion : S.HasConversion key)
    (found : S.member? key = some member) : member.kind.isCallable = true := by
  obtain ⟨other, listed, named, converts⟩ := conversion
  have present : member ∈ (S.get key.owner).members := List.mem_of_find?_eq_some found
  have name : member.name = key.name := by simpa using List.find?_some found
  obtain rfl : member = other :=
    List.inj_on_of_nodup_map (modules.differ key.owner) present listed (name.trans named.symm)
  simp only [Typing.isConversion, Bool.and_eq_true, decide_eq_true_eq] at converts
  rw [converts.2]
  rfl

/-- The code of a well-typed expression of modules has its type. -/
theorem lower_hasType (modules : S.AllModules) (typed : WellTyped S callee scope e)
    (value : callee = false) (known : place.symbols = S) (covers : Covers locals scope)
    (run : lowerExpr place e = .ok code) : code.HasType S locals e.type := by
  have isModule := fun id => (modules.modular id).1
  have plain : ∀ {key member}, S.member? key = some member → member.isParam = false :=
    fun found => (modules.modular _).2 _ (List.mem_of_find?_eq_some found)
  induction typed generalizing place locals code with
  | int =>
    cases run
    exact .inl rfl
  | str =>
    cases run
    rfl
  | unit | container | nested =>
    cases run
    exact .inr rfl
  | @this scope cls _ _ inside =>
    have innermost : ∀ scope : Scope, scope.innermostClass? S = none := by
      intro scope
      induction scope with
      | nil => rfl
      | cons frame outer ih =>
        unfold Scope.innermostClass?
        split
        · simp [isModule]
        · exact ih
    rw [innermost] at inside
    cases inside
  | bound visible named =>
    simp only [lowerExpr, nameCode] at run
    split at run
    · cases run
      exact covers _ visible _ _ named
    · cases run
  | builtinShow => cases value
  | @member owner name member callee type auto scope span found inner receiver access =>
    subst value known
    simp only [lowerExpr, nameCode, isModule, found, Option.getD_some, Bool.false_eq_true, if_false,
      Except.pure_ok] at run
    subst run
    exact moduleMember_hasType modules found access
  | aliased around path ih => exact ih value known (covers.atImport around) run
  | @select scope target owner name member callee type auto span object holder found inner access =>
    subst value known
    simp only [lowerExpr, isModule, found, Option.getD_some, Except.pure_ok] at run
    subst run
    exact moduleMember_hasType modules found access
  | @«show» scope operand _ span line _ _ arg isValue ih =>
    simp only [lowerExpr, lowerCallee, lowerAll, Except.bind_ok, Except.pure_ok, Except.ok.injEq] at run
    obtain ⟨_, rfl, _, ⟨code, lowered, _, rfl, rfl⟩, rfl⟩ := run
    exact showCode_hasType isValue (ih rfl known covers lowered)
  | call function applies found callable args types target ih =>
    simp only [lowerExpr, Except.bind_ok, Except.pure_ok] at run
    obtain ⟨applied, called, codes, lowered, rfl⟩ := run
    obtain ⟨member, present, -, symbol⟩ := callee_ok modules function known applies
    rw [found, Option.some.injEq] at present
    subst present
    obtain rfl := symbol applied called
    obtain ⟨rfl, params⟩ := types (plain found)
    have operands := lowerAll_haveTypes
      (fun arg listed code own => ih arg listed rfl known covers own) lowered
    rw [params] at operands
    exact ⟨_, Symbols.calls_callable found callable, operands⟩
  | @convert scope applied key operand callee span function applies conversion text types arg target ih =>
    simp only [lowerExpr, lowerAll, Except.bind_ok, Except.pure_ok, Except.ok.injEq] at run
    obtain ⟨applied', called, _, ⟨code, lowered, _, rfl, rfl⟩, rfl⟩ := run
    obtain ⟨member, found, type, symbol⟩ := callee_ok modules function known applies
    obtain rfl := symbol applied' called
    have callable := Symbols.calls_callable found (conversion_callable modules conversion found)
    unfold MemberSymbol.signature at callable
    rw [types member found (plain found), type, text] at callable
    exact ⟨[operand.type], callable, operand.type, [], rfl, ih rfl known covers lowered, rfl⟩
  | new named cls isClass =>
    rw [isModule] at isClass
    cases isClass
  | concat first second firstText secondText one two =>
    simp only [lowerExpr, Except.bind_ok, Except.pure_ok] at run
    obtain ⟨left, lowered, right, other, rfl⟩ := run
    have leftText := one rfl known covers lowered
    have rightText := two rfl known covers other
    rw [firstText] at leftText
    rw [secondText] at rightText
    exact ⟨[.str, .str], Symbols.calls_primitive .concat rfl, .str, [.str], rfl, leftText, .str, [],
      rfl, rightText, rfl⟩
  | compare first second compares same isValue one two =>
    simp only [lowerExpr, Except.bind_ok, Except.pure_ok] at run
    obtain ⟨left, lowered, right, other, rfl⟩ := run
    have word : ∀ {op : BinaryOp}, op = .equal ∨ op = .different →
        (if op = .concat then Ty.str else .int) = .int := by
      rintro op (rfl | rfl) <;> rfl
    simp only [TypedExpr.type, word compares]
    have rightType := two rfl known covers other
    rw [← same] at rightType
    exact compare_hasType compares (one rfl known covers lowered) rightType
  | arithmetic first second firstWord secondWord other one two =>
    simp only [lowerExpr, Except.bind_ok, Except.pure_ok] at run
    obtain ⟨left, lowered, right, more, rfl⟩ := run
    have leftWord := one rfl known covers lowered
    have rightWord := two rfl known covers more
    rw [firstWord] at leftWord ⊢
    rw [secondWord] at rightWord
    simp only [TypedExpr.type, other, if_false]
    exact arithmetic_hasType other leftWord rightWord
  | @unary _ _ _ _ op arg word ih =>
    simp only [lowerExpr, Except.bind_ok, Except.pure_ok] at run
    obtain ⟨operand, lowered, rfl⟩ := run
    have inner := ih rfl known covers lowered
    rw [word] at inner
    cases op with
    | neg => exact ⟨rfl, .int, by simp, .inr (.inr rfl), .inl rfl, inner⟩
    | not => exact ⟨rfl, inner⟩
  | when condition word first test one =>
    simp only [lowerExpr, Except.bind_ok, Except.pure_ok] at run
    obtain ⟨conditionCode, lowered, thenCode, other, rfl⟩ := run
    have tested := test rfl known covers lowered
    rw [word] at tested
    exact ⟨tested, ⟨_, one rfl known covers other, .unit, .inr rfl, rfl⟩, .inr rfl⟩
  | cond condition word first second same test one two =>
    simp only [lowerExpr, Except.bind_ok, Except.pure_ok] at run
    obtain ⟨conditionCode, lowered, thenCode, other, elseCode, last, rfl⟩ := run
    have tested := test rfl known covers lowered
    rw [word] at tested
    exact ⟨tested, one rfl known covers other, same ▸ two rfl known covers last⟩
  | block parts fresh ih =>
    simp only [lowerExpr, Except.bind_ok, Except.pure_ok] at run
    obtain ⟨steps, lowered, rfl⟩ := run
    exact lowerBody_haveType (fun part listed place locals code known covers run =>
      ih part listed rfl known covers run) fresh covers.enter lowered known

theorem covers_plain (plain : Scope.ids scope = []) : Covers locals scope := by
  intro frame listed name found sought
  have visible := mem_ids_of_lookup listed sought
  rw [plain] at visible
  cases visible

/-- The parameters of a function are the locals of its body. -/
theorem covers_params {values : List (String × Local)} (plain : Scope.ids scope = [])
    (nodup : (values.map (·.2.id)).Nodup) :
    Covers ((values.map (·.2.id)).zip (values.map (·.2.type))) ({ locals := values } :: scope) := by
  intro frame listed name found sought
  obtain rfl | listed := List.mem_cons.mp listed
  · have present := mem_of_lookup sought
    clear sought listed
    dsimp only at present
    induction values with
    | nil => cases present
    | cons first rest ih =>
      rw [List.map_cons, List.nodup_cons] at nodup
      rw [List.map_cons, List.map_cons, List.zip_cons_cons, List.lookup_cons]
      obtain rfl | present := List.mem_cons.mp present
      · simp
      · have differs : (found.id == first.2.id) = false := by
          rw [beq_eq_false_iff_ne]
          intro same
          exact nodup.1 (same ▸ List.mem_map_of_mem (f := (·.2.id)) present)
        rw [differs]
        exact ih nodup.2 present
  · exact covers_plain plain frame listed name found sought

variable {base : Nat} {id : ContainerId} {members : List TypedMember}

theorem val_hasType (modules : S.AllModules) (fits : TypedMember.Fits base S id (.val decl key init))
    (lowered : lowerExpr (bodyPlace S id []) init = .ok code) : code.HasType S [] init.type := by
  obtain ⟨-, -, -, -, -, scope, inside, typed⟩ := fits
  exact lower_hasType modules typed rfl rfl (covers_plain inside.plain) lowered

theorem moduleSteps_haveType (modules : S.AllModules)
    (fits : TypedMember.FitsAll base S id members) (run : moduleSteps S members = .ok steps) :
    ∃ type, CodeStep.HaveType S [] last steps type := by
  have place := bodyPlace_module (modules.modular id).1
  induction members generalizing steps last with
  | nil =>
    simp only [moduleSteps, Except.ok.injEq] at run
    subst run
    exact ⟨last, rfl⟩
  | cons member rest ih =>
    cases member with
    | imports _ | foreign _ _ | func _ _ _ _ | container _ => exact ih fits.2 run
    | val decl key init =>
      rw [moduleSteps] at run
      split at run
      · rename_i strict
        simp only [Except.bind_ok, Except.pure_ok] at run
        obtain ⟨code, lowered, others, more, rfl⟩ := run
        rw [← place] at lowered
        have typed := val_hasType modules fits.1 lowered
        obtain ⟨rfl, ⟨member, found, -, -, -, kind, -⟩, -, -, type, -⟩ := fits.1
        rw [strict] at kind
        obtain ⟨last, steps⟩ := ih fits.2 more
        rw [found, Option.getD_some]
        exact ⟨last, member.type, Symbols.mem_cells found (.inl kind), type member found ▸ typed, steps⟩
      · exact ih fits.2 run
    | expr span value =>
      simp only [moduleSteps, Except.bind_ok, Except.pure_ok] at run
      obtain ⟨code, lowered, others, more, rfl⟩ := run
      obtain ⟨-, scope, inside, typed⟩ := fits.1
      have own : code.HasType S [] value.type :=
        lower_hasType modules typed rfl rfl (covers_plain inside.plain) lowered
      obtain ⟨last, steps⟩ := ih fits.2 more
      exact ⟨last, value.type, own, steps⟩

/-- The procedures of modules have the signatures that the symbols give them. -/
theorem Entry.hasSignature {bodies : List (ContainerId × TypedExpr)} (modules : S.AllModules)
    (made : Entry S id members entry) (within : Within base S bodies id members) :
    ∃ signature, (entry.1, signature) ∈ S.procedures ∧ entry.2.HasSignature S signature := by
  have isModule := (modules.modular id).1
  have ensures : ∀ {rest type}, CodeStep.HaveType S [] .unit rest type →
      Code.HasType S [] (.block (.run (.call (ensureSymbol (S.get id).qualified) []) :: rest)) type :=
    fun steps => ⟨.unit, ⟨[], Symbols.calls_ensure within.inside, rfl⟩, steps⟩
  cases made with
  | construct isClass | lazySlot isClass | method isClass =>
    rw [isModule] at isClass
    cases isClass
  | ensure _ lowered =>
    refine ⟨⟨[], .unit⟩, ?_, rfl, Symbols.init_procedure within.inside,
      Symbols.mem_cells_state within.inside, moduleSteps_haveType modules within.fits lowered⟩
    exact List.mem_flatMap.mpr ⟨_, Symbols.get_mem within.inside, List.mem_cons_self⟩
  | initialise _ _ _ lowered =>
    obtain ⟨last, steps⟩ := moduleSteps_haveType modules within.fits lowered
    refine ⟨⟨[], .unit⟩, Symbols.init_procedure within.inside, List.nodup_nil, rfl, ?_⟩
    exact ⟨last, steps, .unit, .inr rfl, rfl⟩
  | strict _ listed mode =>
    obtain ⟨rfl, ⟨member, found, -, -, -, kind, -⟩, -⟩ := within.fits.mem listed
    rw [mode] at kind
    rw [found, Option.getD_some]
    refine ⟨⟨[], member.type⟩, Symbols.value_procedure found (.inl kind), List.nodup_nil, rfl, ?_⟩
    exact ensures ⟨member.type, Symbols.mem_cells found (.inl kind), rfl⟩
  | @lazy decl key init code _ listed mode lowered =>
    have fits := within.fits.mem listed
    have typed := val_hasType modules fits lowered
    obtain ⟨rfl, ⟨member, found, -, -, -, kind, -⟩, -, -, type, -⟩ := fits
    rw [mode] at kind
    rw [← type member found] at typed
    rw [found, Option.getD_some]
    refine ⟨⟨[], member.type⟩, Symbols.value_procedure found (.inr kind), List.nodup_nil, rfl, ?_⟩
    have cell := Symbols.mem_cells found (.inr kind)
    have flag := Symbols.mem_cells_flag found kind
    refine ensures ⟨.unit, ⟨flag, .inr rfl, ?_⟩, member.type, cell, rfl⟩
    exact ⟨member.type, cell, typed, .int, flag, .inl rfl, rfl⟩
  | @func decl key ids body code _ listed lowered =>
    obtain ⟨rfl, ⟨member, found, -, -, -, kind, -⟩, -, nodup, scope, values, inside, same, typed,
      types⟩ := within.fits.mem listed
    obtain ⟨type, params⟩ := types member found
    rw [found, Option.getD_some]
    refine ⟨member.signature, Symbols.func_procedure found kind, nodup, ?_, ?_⟩
    · rw [MemberSymbol.signature, params, ← same, List.length_map, List.length_map]
    · rw [MemberSymbol.signature, params, ← same, type]
      rw [← same] at nodup
      exact lower_hasType modules typed rfl rfl (covers_params inside.plain nodup) lowered

end Lowering

end ScriptShell
