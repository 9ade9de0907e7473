import ScriptShell.Proofs.Lowering.Units
import ScriptShell.Compiler

/-! Slots of the object at hand. Code takes the object that it has at hand for one of its own class: it
reads and sets slots of it only where the objects of that class store something, and code of modules
never asks for it. -/
namespace ScriptShell

/-- The objects of a class store something in a slot. -/
def ContainerSymbol.HasSlot (cls : ContainerSymbol) (slot : Nat) : Prop :=
  ∃ member ∈ cls.members, member.slot = some slot ∨ member.flagSlot = some slot

mutual

/-- Code takes the object at hand for one of the class `own`. -/
@[simp] def Code.OnOwn (own : Option ContainerSymbol) : Code → Prop
  | .word _ | .text _ _ | .bound _ | .cell _ => True
  | .self => own.isSome = true
  | .slot object slot => object.OnOwn own ∧ (object = .self → ∀ cls ∈ own, cls.HasSlot slot)
  | .call _ args => Code.OnOwnAll own args
  | .op _ left right | .both left right | .either left right => left.OnOwn own ∧ right.OnOwn own
  | .not operand => operand.OnOwn own
  | .cond condition thenBranch elseBranch =>
    condition.OnOwn own ∧ thenBranch.OnOwn own ∧ elseBranch.OnOwn own
  | .block body => CodeStep.OnOwnAll own body

@[simp] def Code.OnOwnAll (own : Option ContainerSymbol) : List Code → Prop
  | [] => True
  | code :: rest => code.OnOwn own ∧ Code.OnOwnAll own rest

@[simp] def CodeStep.OnOwnAll (own : Option ContainerSymbol) : List CodeStep → Prop
  | [] => True
  | .run value :: rest | .bind _ value :: rest | .setCell _ value :: rest =>
    value.OnOwn own ∧ CodeStep.OnOwnAll own rest
  | .setSlot slot value :: rest =>
    (∃ cls, own = some cls ∧ cls.HasSlot slot) ∧ value.OnOwn own ∧ CodeStep.OnOwnAll own rest

end

/-- A procedure takes the object at hand for one of its class: a method one of the class that has the
member, a constructor the object it makes. -/
def Procedure.OnOwn (S : Symbols) : Procedure → Prop
  | .function _ _ body | .ensure _ _ body => body.OnOwn none
  | .method frame _ body => ∃ id, (S.get id).isClass = true ∧
      (∃ member ∈ (S.get id).members, frame = member.symbol) ∧ body.OnOwn (some (S.get id))
  | .construct frame _ slots _ body => ∃ id, (S.get id).isClass = true ∧
      frame = Lowering.constructSymbol (S.get id).qualified ∧ slots = (S.get id).slotCount ∧
      body.OnOwn (some (S.get id))

/-- A procedure in the code of a container takes the object at hand for one of that container. A constructor
makes it, and stores its arguments. -/
def Procedure.OnOwnOf (container : ContainerSymbol) : Procedure → Prop
  | .function _ _ body | .ensure _ _ body => body.OnOwn none
  | .method frame _ body => container.isClass = true ∧
      (∃ member ∈ container.members, frame = member.symbol) ∧ body.OnOwn (some container)
  | .construct frame className slots fields body => container.isClass = true ∧
      frame = Lowering.constructSymbol container.qualified ∧ className = container.name ∧
      slots = container.slotCount ∧ fields = Lowering.argumentSlots container ∧ body.OnOwn (some container)

theorem Procedure.OnOwnOf.onOwn {S : Symbols} {id : ContainerId} {procedure : Procedure}
    (own : procedure.OnOwnOf (S.get id)) : procedure.OnOwn S := by
  cases procedure with
  | function | ensure => exact own
  | method => exact ⟨id, own⟩
  | construct =>
    obtain ⟨isClass, frame, -, slots, -, body⟩ := own
    exact ⟨id, isClass, frame, slots, body⟩

namespace Lowering

variable {S : Symbols} {own : Option ContainerId} {place : Place} {cls : Option ContainerSymbol}

def Callee.OnOwn (own : Option ContainerSymbol) : Callee → Prop
  | .builtinShow | .function _ => True
  | .method _ receiver | .detached _ receiver => receiver.OnOwn own

/-- What the objects of the class at hand store has a slot. -/
def Stores (S : Symbols) (own : Option ContainerId) : Prop :=
  ∀ id, own = some id → ∀ member ∈ (S.get id).members, member.Stored

theorem Stores.hasSlot (stores : Stores S own) (at_hand : own = some owner)
    (found : S.member? ⟨owner, name⟩ = some member) (kind : member.kind = .val) :
    ∀ cls ∈ own.map S.get, cls.HasSlot (member.slot.getD 0) := by
  subst at_hand
  simp only [Option.map_some, Option.mem_def, Option.some.injEq, forall_eq']
  have listed : member ∈ (S.get owner).members := List.mem_of_find?_eq_some found
  obtain ⟨slot, stored⟩ := Option.isSome_iff_exists.mp ((stores owner rfl member listed).1 kind)
  exact ⟨member, listed, .inl (by simp [stored])⟩

theorem moduleMember_onOwn (member : MemberSymbol) : (moduleMember member).OnOwn cls := by
  unfold moduleMember
  split <;> simp [Code.OnOwn, Code.OnOwnAll]

theorem classMember_onOwn (object : Code.OnOwn cls code)
    (slots : code = .self → member.kind = .val → ∀ own ∈ cls, own.HasSlot (member.slot.getD 0)) :
    (classMember member code).OnOwn cls := by
  unfold classMember
  split
  case h_1 kind => exact ⟨object, fun self => slots self kind⟩
  all_goals simp [Code.OnOwn, Code.OnOwnAll, CodeStep.OnOwnAll, object]

theorem moduleMember_ne_self (member : MemberSymbol) : moduleMember member ≠ .self := by
  unfold moduleMember
  split <;> simp

theorem classMember_ne_self (member : MemberSymbol) (object : Code) :
    classMember member object ≠ .self := by
  unfold classMember
  split <;> simp

theorem applyCode_onOwn (applied : Callee.OnOwn cls callee) (each : Code.OnOwnAll cls args) :
    (applyCode line callee type args).OnOwn cls ∧ applyCode line callee type args ≠ .self := by
  cases callee with
  | function symbol => exact ⟨each, by simp [applyCode]⟩
  | method symbol receiver => exact ⟨⟨applied, each⟩, by simp [applyCode]⟩
  | detached symbol receiver => exact ⟨⟨applied, each, trivial⟩, by simp [applyCode]⟩
  | builtinShow =>
    have first : (args.headD (.word 0)).OnOwn cls := by
      cases args with
      | nil => trivial
      | cons arg rest => exact each.1
    simp only [applyCode, showCode]
    split <;> simp only [Code.OnOwn, Code.OnOwnAll, CodeStep.OnOwnAll, first, true_and] <;> simp

theorem binaryCode_onOwn (left : Code.OnOwn cls one) (right : Code.OnOwn cls two) :
    (binaryCode op type one two).OnOwn cls ∧ binaryCode op type one two ≠ .self := by
  cases op <;> simp only [binaryCode]
  case equal | different => split <;> simp [Code.OnOwn, Code.OnOwnAll, left, right]
  all_goals simp [Code.OnOwn, Code.OnOwnAll, left, right]

theorem lowerAll_onOwn
    (each : ∀ arg ∈ args, ∀ code, lowerExpr place arg = .ok code → code.OnOwn cls)
    (run : lowerAll place args = .ok codes) : Code.OnOwnAll cls codes := by
  induction args generalizing codes with
  | nil =>
    simp only [lowerAll, Except.ok.injEq] at run
    subst run
    trivial
  | cons arg rest ih =>
    simp only [lowerAll, Except.bind_ok, Except.pure_ok] at run
    obtain ⟨code, lowered, others, more, rfl⟩ := run
    exact ⟨each arg List.mem_cons_self code lowered,
      ih (fun arg listed => each arg (List.mem_cons_of_mem _ listed)) more⟩

theorem lowerBody_onOwn {scope : Scope} {locals : List (String × Local)} {body : List TypedStmt}
    (each : ∀ part ∈ TypedStmt.parts scope locals body, ∀ (place : Place) (code : Code),
      place.symbols = S → lowerExpr place part.2 = .ok code → code.OnOwn cls)
    (run : lowerBody place body = .ok steps) (known : place.symbols = S) :
    CodeStep.OnOwnAll cls steps := by
  induction body generalizing locals place steps with
  | nil =>
    simp only [lowerBody, Except.ok.injEq] at run
    subst run
    trivial
  | cons stmt rest ih =>
    cases stmt with
    | val span name ascription id init =>
      simp only [lowerBody, Except.bind_ok, Except.pure_ok] at run
      obtain ⟨code, lowered, others, more, rfl⟩ := run
      exact ⟨each _ List.mem_cons_self place code known lowered,
        ih (fun part listed => each part (List.mem_cons_of_mem _ listed)) more known⟩
    | expr value =>
      simp only [lowerBody, Except.bind_ok, Except.pure_ok] at run
      obtain ⟨code, lowered, others, more, rfl⟩ := run
      exact ⟨each _ List.mem_cons_self place code known lowered,
        ih (fun part listed => each part (List.mem_cons_of_mem _ listed)) more known⟩

theorem shown (called : (.ok .builtinShow : Except LowerError Callee) = .ok target) :
    target.OnOwn cls := by
  cases called
  trivial

theorem memberName_onOwn (stores : Stores S own) (known : place.symbols = S)
    (found : S.member? ⟨owner, name⟩ = some member)
    (at_hand : isClass = true → own = some owner) :
    (∀ code, lowerExpr place (.name span type text (.member ⟨owner, name⟩ isClass onThis auto)) =
        .ok code → code.OnOwn (own.map S.get) ∧ code ≠ .self) ∧
      ∀ target, lowerCallee place (.name span type text (.member ⟨owner, name⟩ isClass onThis auto)) =
        .ok target → target.OnOwn (own.map S.get) := by
  subst known
  cases isClass with
  | false =>
    simp only [lowerExpr, nameCode, lowerCallee, Bool.false_eq_true, if_false, Except.pure_ok]
    constructor
    · rintro _ rfl
      exact ⟨moduleMember_onOwn _, moduleMember_ne_self _⟩
    · rintro _ rfl
      trivial
  | true =>
    simp only [lowerExpr, nameCode, lowerCallee, found, Option.getD_some, if_true, Except.bind_ok,
      self]
    constructor
    · rintro code ⟨receiver, taken, run⟩
      have self : receiver = .self := by
        split at taken
        · cases taken
          rfl
        · cases taken
      subst self
      have object : Code.OnOwn (own.map place.symbols.get) .self := by
        simp [at_hand rfl, Code.OnOwn]
      have whole := classMember_onOwn object fun _ kind => stores.hasSlot (at_hand rfl) found kind
      split at run
      · cases run
        exact ⟨moduleMember_onOwn _, moduleMember_ne_self _⟩
      · cases run
        exact ⟨moduleMember_onOwn _, moduleMember_ne_self _⟩
      · cases run
        exact ⟨whole, classMember_ne_self _ _⟩
    · rintro target ⟨receiver, taken, run⟩
      have self : receiver = .self := by
        split at taken
        · cases taken
          rfl
        · cases taken
      subst self
      split at run
      · cases run
        simp [Callee.OnOwn, Code.OnOwn, at_hand rfl]
      · cases run
        trivial

/-- The code of a well-typed expression. Where it is the object at hand itself, the expression has the
type of this object, so what is selected from it belongs to its class. -/
theorem lower_onOwn (typed : WellTyped S callee scope e) (stores : Stores S own)
    (known : place.symbols = S) (asked : ∀ receiver ∈ e.receivers borrowed, own = some receiver.cls) :
    (∀ code, lowerExpr place e = .ok code → code.OnOwn (own.map S.get) ∧
        (code = .self → ∃ cls, own = some cls ∧ e.type = .object cls)) ∧
      ∀ target, lowerCallee place e = .ok target → target.OnOwn (own.map S.get) := by
  have off : ∀ {code : Code} {type : Ty}, code.OnOwn (own.map S.get) ∧ code ≠ .self →
      code.OnOwn (own.map S.get) ∧ (code = .self → ∃ cls, own = some cls ∧ type = .object cls) :=
    fun fits => ⟨fits.1, fun same => (fits.2 same).elim⟩
  induction typed generalizing place borrowed with
  | int | str | unit | container | builtinShow =>
    refine ⟨fun code run => off ?_, fun _ called => shown called⟩
    cases run
    exact ⟨trivial, by simp⟩
  | this inside =>
    refine ⟨fun code run => ?_, fun _ called => shown called⟩
    have at_hand := asked _ List.mem_cons_self
    simp only [lowerExpr, self] at run
    split at run
    · cases run
      exact ⟨by simp [Code.OnOwn, at_hand], fun _ => ⟨_, at_hand, rfl⟩⟩
    · cases run
  | bound visible named =>
    refine ⟨fun code run => off ?_, fun _ called => shown called⟩
    simp only [lowerExpr, nameCode] at run
    split at run
    · cases run
      exact ⟨trivial, by simp⟩
    · cases run
  | @member owner _ _ _ _ _ _ _ found plain inside access =>
    have at_hand : (S.get owner).isClass = true → own = some owner := fun isClass =>
      asked ⟨owner, borrowed⟩ (by simp [TypedExpr.receivers, Ref.receivers, isClass])
    constructor
    · exact fun code run => off ((memberName_onOwn stores known found at_hand).1 code run)
    · exact (memberName_onOwn stores known found at_hand).2
  | aliased around path ih => exact ih known asked
  | nested object ih =>
    refine ⟨fun code run => off ?_, fun _ called => shown called⟩
    cases run
    exact ⟨trivial, by simp⟩
  | @select _ target owner name member callee type auto span object holder found plain access ih =>
    have known' := known
    subst known'
    have whole := (ih known asked).1
    cases isClass : (place.symbols.get owner).isClass with
    | false =>
      simp only [lowerExpr, lowerCallee, Except.pure_ok]
      constructor
      · rintro _ rfl
        exact off ⟨moduleMember_onOwn _, moduleMember_ne_self _⟩
      · rintro _ rfl
        trivial
    | true =>
      simp only [lowerExpr, lowerCallee, found, Option.getD_some, Except.bind_ok, Except.pure_ok]
      constructor
      · rintro _ ⟨code, lowered, rfl⟩
        obtain ⟨onOwn, same⟩ := whole code lowered
        refine off ⟨classMember_onOwn onOwn fun self kind => ?_, classMember_ne_self _ _⟩
        obtain ⟨cls, at_hand, type⟩ := same self
        rw [type, Ty.container?, Option.some.injEq] at holder
        subst holder
        exact stores.hasSlot at_hand found kind
      · rintro _ ⟨code, lowered, rfl⟩
        obtain ⟨onOwn, -⟩ := whole code lowered
        unfold memberCallee
        split <;> exact onOwn
  | «show» arg value ih =>
    refine ⟨fun code run => off ?_, fun _ called => shown called⟩
    simp only [TypedExpr.receivers, TypedExpr.receiversAll, Ref.receivers, List.nil_append,
      List.append_nil] at asked
    simp only [lowerExpr, lowerCallee, Except.bind_ok, Except.pure_ok, Except.ok.injEq] at run
    obtain ⟨_, rfl, codes, lowered, rfl⟩ := run
    refine applyCode_onOwn trivial (lowerAll_onOwn ?_ lowered)
    intro one listed code own
    obtain rfl := List.mem_singleton.mp listed
    exact ((ih known asked).1 code own).1
  | call function applies found callable args types target ih =>
    refine ⟨fun code run => off ?_, fun _ called => shown called⟩
    simp only [TypedExpr.receivers, List.mem_append, TypedExpr.mem_receiversAll] at asked
    simp only [lowerExpr, Except.bind_ok, Except.pure_ok] at run
    obtain ⟨applied, called, codes, lowered, rfl⟩ := run
    have callee := (target known fun receiver named => asked receiver (.inl named)).2 applied called
    refine applyCode_onOwn callee (lowerAll_onOwn ?_ lowered)
    intro arg listed code lowered
    exact ((ih arg listed known fun receiver named =>
      asked receiver (.inr ⟨arg, listed, named⟩)).1 code lowered).1
  | convert function applies conversion text types arg target ih =>
    refine ⟨fun code run => off ?_, fun _ called => shown called⟩
    simp only [TypedExpr.receivers, TypedExpr.receiversAll, List.append_nil, List.mem_append] at asked
    simp only [lowerExpr, Except.bind_ok, Except.pure_ok] at run
    obtain ⟨applied, called, codes, lowered, rfl⟩ := run
    have callee := (target known fun receiver named => asked receiver (.inl named)).2 applied called
    refine applyCode_onOwn callee (lowerAll_onOwn ?_ lowered)
    intro one listed code own
    obtain rfl := List.mem_singleton.mp listed
    exact ((ih known fun receiver named => asked receiver (.inr named)).1 code own).1
  | new named cls isClass args target ih =>
    refine ⟨fun code run => off ?_, fun _ called => shown called⟩
    simp only [TypedExpr.receivers, List.mem_append, TypedExpr.mem_receiversAll] at asked
    simp only [lowerExpr, Except.bind_ok, Except.pure_ok] at run
    obtain ⟨codes, lowered, rfl⟩ := run
    refine ⟨lowerAll_onOwn ?_ lowered, by simp⟩
    intro arg listed code lowered
    exact ((ih arg listed known fun receiver named =>
      asked receiver (.inr ⟨arg, listed, named⟩)).1 code lowered).1
  | concat first second _ _ one two | compare first second _ _ _ one two
  | arithmetic first second _ _ _ one two =>
    refine ⟨fun code run => off ?_, fun _ called => shown called⟩
    simp only [TypedExpr.receivers, List.mem_append] at asked
    simp only [lowerExpr, Except.bind_ok, Except.pure_ok] at run
    obtain ⟨left, lowered, right, other, rfl⟩ := run
    exact binaryCode_onOwn
      ((one known fun receiver named => asked receiver (.inl named)).1 left lowered).1
      ((two known fun receiver named => asked receiver (.inr named)).1 right other).1
  | @unary _ _ _ _ op arg word ih =>
    refine ⟨fun code run => off ?_, fun _ called => shown called⟩
    simp only [lowerExpr, Except.bind_ok, Except.pure_ok] at run
    obtain ⟨operand, lowered, rfl⟩ := run
    have inner := ((ih known asked).1 operand lowered).1
    cases op with
    | neg => exact ⟨⟨trivial, inner⟩, by simp⟩
    | not => exact ⟨inner, by simp⟩
  | when condition word first test one =>
    refine ⟨fun code run => off ?_, fun _ called => shown called⟩
    simp only [TypedExpr.receivers, List.append_nil, List.mem_append] at asked
    simp only [lowerExpr, Except.bind_ok, Except.pure_ok] at run
    obtain ⟨conditionCode, lowered, thenCode, other, rfl⟩ := run
    have tested := ((test known fun receiver named => asked receiver (.inl named)).1 _ lowered).1
    have taken := ((one known fun receiver named => asked receiver (.inr named)).1 _ other).1
    exact ⟨⟨tested, ⟨taken, trivial, trivial⟩, trivial⟩, by simp⟩
  | cond condition word first second same test one two =>
    refine ⟨fun code run => off ?_, fun _ called => shown called⟩
    simp only [TypedExpr.receivers, List.mem_append] at asked
    simp only [lowerExpr, Except.bind_ok, Except.pure_ok] at run
    obtain ⟨conditionCode, lowered, thenCode, other, elseCode, last, rfl⟩ := run
    have tested :=
      ((test known fun receiver named => asked receiver (.inl (.inl named))).1 _ lowered).1
    have taken := ((one known fun receiver named => asked receiver (.inl (.inr named))).1 _ other).1
    have otherwise := ((two known fun receiver named => asked receiver (.inr named)).1 _ last).1
    exact ⟨⟨tested, taken, otherwise⟩, by simp⟩
  | block parts fresh ih =>
    refine ⟨fun code run => off ?_, fun _ called => shown called⟩
    simp only [lowerExpr, Except.bind_ok, Except.pure_ok] at run
    obtain ⟨steps, lowered, rfl⟩ := run
    have onOwn := lowerBody_onOwn (fun part listed place code known run =>
      ((ih part listed known fun receiver named =>
        asked receiver (TypedStmt.mem_receiversAll.mpr ⟨part, listed, named⟩)).1 code run).1)
      lowered known
    exact ⟨onOwn, by simp⟩

variable {base : Nat} {id : ContainerId} {members : List TypedMember}

theorem body_onOwn (typed : WellTyped S false scope e) (stores : Stores S (S.ownClass? id))
    (places : ∀ receiver ∈ e.receivers false, receiver.InPlace S id)
    (lowered : lowerExpr (bodyPlace S id locals) e = .ok code) :
    code.OnOwn ((S.ownClass? id).map S.get) :=
  ((lower_onOwn typed stores rfl fun receiver asked => ownClass?_eq (places receiver asked)).1
    code lowered).1

theorem val_onOwn (fits : TypedMember.Fits base S id (.val decl key init))
    (stores : Stores S (S.ownClass? id))
    (places : ∀ receiver ∈ init.receivers false, receiver.InPlace S id)
    (lowered : lowerExpr (bodyPlace S id []) init = .ok code) :
    code.OnOwn ((S.ownClass? id).map S.get) := by
  obtain ⟨-, -, -, -, -, scope, inside, typed⟩ := fits
  exact body_onOwn typed stores places lowered

theorem expr_onOwn (fits : TypedMember.Fits base S id (.expr span value))
    (stores : Stores S (S.ownClass? id))
    (places : ∀ receiver ∈ value.receivers false, receiver.InPlace S id)
    (lowered : lowerExpr (bodyPlace S id []) value = .ok code) :
    code.OnOwn ((S.ownClass? id).map S.get) := by
  obtain ⟨-, scope, inside, typed⟩ := fits
  exact body_onOwn typed stores places lowered

theorem func_onOwn (fits : TypedMember.Fits base S id (.func decl key ids body))
    (stores : Stores S (S.ownClass? id))
    (places : ∀ receiver ∈ body.receivers false, receiver.InPlace S id)
    (lowered : lowerExpr (bodyPlace S id ids) body = .ok code) :
    code.OnOwn ((S.ownClass? id).map S.get) := by
  obtain ⟨-, -, -, -, scope, locals, inside, -, typed, -⟩ := fits
  exact body_onOwn typed stores places lowered

theorem ownClass?_module (isModule : (S.get id).isClass = false) : S.ownClass? id = none := by
  simp [Symbols.ownClass?, isModule]

theorem ownClass?_class (isClass : (S.get id).isClass = true) : S.ownClass? id = some id := by
  simp [Symbols.ownClass?, isClass]

theorem moduleSteps_onOwn (isModule : (S.get id).isClass = false)
    (stores : Stores S (S.ownClass? id)) (fits : TypedMember.FitsAll base S id members)
    (places : Receiver.InPlaceAll S (TypedMember.bodiesAll id members))
    (run : moduleSteps S members = .ok steps) : CodeStep.OnOwnAll none steps := by
  have none_eq : (S.ownClass? id).map S.get = none := by rw [ownClass?_module isModule]; rfl
  induction members generalizing steps with
  | nil =>
    simp only [moduleSteps, Except.ok.injEq] at run
    subst run
    trivial
  | cons member rest ih =>
    cases member with
    | imports _ | foreign _ _ | func _ _ _ _ | container _ =>
      exact ih fits.2 (fun body listed => places body (List.mem_append_right _ listed)) run
    | val decl key init =>
      have later : Receiver.InPlaceAll S (TypedMember.bodiesAll id rest) :=
        fun body listed => places body (List.mem_append_right _ listed)
      rw [moduleSteps] at run
      split at run
      · simp only [Except.bind_ok, Except.pure_ok] at run
        obtain ⟨code, lowered, others, more, rfl⟩ := run
        rw [← bodyPlace_module isModule] at lowered
        have onOwn := val_onOwn fits.1 stores (places _ List.mem_cons_self) lowered
        rw [none_eq] at onOwn
        exact ⟨onOwn, ih fits.2 later more⟩
      · exact ih fits.2 later run
    | expr span value =>
      have later : Receiver.InPlaceAll S (TypedMember.bodiesAll id rest) :=
        fun body listed => places body (List.mem_append_right _ listed)
      simp only [moduleSteps, Except.bind_ok, Except.pure_ok] at run
      obtain ⟨code, lowered, others, more, rfl⟩ := run
      rw [← bodyPlace_module isModule] at lowered
      have onOwn := expr_onOwn fits.1 stores (places _ List.mem_cons_self) lowered
      rw [none_eq] at onOwn
      exact ⟨onOwn, ih fits.2 later more⟩

theorem hasSlot_of_val (fits : TypedMember.Fits base S id (.val decl key init))
    (stores : Stores S (some id)) (kind : decl.mode = .strict) :
    (S.get id).HasSlot (((S.member? key).getD default).slot.getD 0) := by
  obtain ⟨rfl, ⟨member, found, -, -, -, isVal, -⟩, -⟩ := fits
  rw [kind] at isVal
  rw [found, Option.getD_some]
  exact stores.hasSlot rfl found isVal (S.get id) rfl

theorem classSteps_onOwn (isClass : (S.get id).isClass = true) (stores : Stores S (some id))
    (fits : TypedMember.FitsAll base S id members)
    (places : Receiver.InPlaceAll S (TypedMember.bodiesAll id members))
    (run : classSteps S members = .ok steps) : CodeStep.OnOwnAll (some (S.get id)) steps := by
  have own_eq : (S.ownClass? id).map S.get = some (S.get id) := by rw [ownClass?_class isClass]; rfl
  induction members generalizing steps with
  | nil =>
    simp only [classSteps, Except.ok.injEq] at run
    subst run
    trivial
  | cons member rest ih =>
    cases member with
    | imports _ | foreign _ _ | func _ _ _ _ | container _ =>
      exact ih fits.2 (fun body listed => places body (List.mem_append_right _ listed)) run
    | val decl key init =>
      have later : Receiver.InPlaceAll S (TypedMember.bodiesAll id rest) :=
        fun body listed => places body (List.mem_append_right _ listed)
      rw [classSteps] at run
      split at run
      · rename_i mode
        simp only [Except.bind_ok, Except.pure_ok] at run
        obtain ⟨code, lowered, others, more, rfl⟩ := run
        rw [← bodyPlace_class isClass] at lowered
        have onOwn := val_onOwn fits.1 (ownClass?_class isClass ▸ stores)
          (places _ List.mem_cons_self) lowered
        rw [own_eq] at onOwn
        exact ⟨⟨_, rfl, hasSlot_of_val fits.1 stores mode⟩, onOwn, ih fits.2 later more⟩
      · exact ih fits.2 later run
    | expr span value =>
      have later : Receiver.InPlaceAll S (TypedMember.bodiesAll id rest) :=
        fun body listed => places body (List.mem_append_right _ listed)
      simp only [classSteps, Except.bind_ok, Except.pure_ok] at run
      obtain ⟨code, lowered, others, more, rfl⟩ := run
      rw [← bodyPlace_class isClass] at lowered
      have onOwn := expr_onOwn fits.1 (ownClass?_class isClass ▸ stores)
        (places _ List.mem_cons_self) lowered
      rw [own_eq] at onOwn
      exact ⟨onOwn, ih fits.2 later more⟩

theorem lazyMethod_onOwn {cls : ContainerSymbol} (object : cls.HasSlot slot)
    (flagged : cls.HasSlot flag) (init : code.OnOwn (some cls)) :
    Code.OnOwn (some cls) (.block
      [.run (.cond (.slot .self flag) (.word 0)
          (.block [.setSlot slot code, .setSlot flag (.word 1)])),
        .run (.slot .self slot)]) := by
  have read : ∀ {number}, cls.HasSlot number → Code.OnOwn (some cls) (.slot .self number) := by
    intro number stored
    refine ⟨rfl, fun _ own same => ?_⟩
    cases same
    exact stored
  exact ⟨⟨read flagged, trivial, ⟨cls, rfl, object⟩, init, ⟨cls, rfl, flagged⟩, trivial, trivial⟩,
    read object, trivial⟩

/-- A procedure of a well-typed unit takes the object at hand for one of its class. -/
theorem Entry.onOwnOf {bodies : List (ContainerId × TypedExpr)} (made : Entry S id members entry)
    (within : Within base S bodies id members) (stores : Stores S (S.ownClass? id))
    (places : Receiver.InPlaceAll S bodies) : entry.2.OnOwnOf (S.get id) := by
  have inside : Receiver.InPlaceAll S (TypedMember.bodiesAll id members) :=
    fun body listed => places body (within.bodies body listed)
  cases made with
  | ensure isModule lowered => exact moduleSteps_onOwn isModule stores within.fits inside lowered
  | initialise isModule _ _ lowered =>
    exact ⟨moduleSteps_onOwn isModule stores within.fits inside lowered, trivial, trivial⟩
  | construct isClass lowered =>
    have onOwn := classSteps_onOwn isClass (ownClass?_class isClass ▸ stores) within.fits inside
      lowered
    exact ⟨isClass, rfl, rfl, rfl, rfl, onOwn⟩
  | strict isModule listed mode => exact ⟨trivial, trivial, trivial⟩
  | lazy isModule listed mode lowered =>
    have init := val_onOwn (within.fits.mem listed) stores
      (inside _ (TypedMember.mem_bodiesAll listed List.mem_cons_self)) lowered
    rw [ownClass?_module isModule] at init
    exact ⟨trivial, ⟨trivial, trivial, init, trivial, trivial⟩, trivial, trivial⟩
  | @lazySlot decl key init code isClass listed mode lowered =>
    have fits := within.fits.mem listed
    have init := val_onOwn fits stores (inside _ (TypedMember.mem_bodiesAll listed List.mem_cons_self)) lowered
    rw [ownClass?_class isClass] at init stores
    obtain ⟨rfl, ⟨member, found, -, -, -, isLazy, -⟩, -⟩ := fits
    rw [mode] at isLazy
    have present : member ∈ (S.get id).members := List.mem_of_find?_eq_some found
    obtain ⟨slot, flag⟩ := (stores id rfl member present).2 isLazy
    obtain ⟨slot, stored⟩ := Option.isSome_iff_exists.mp slot
    obtain ⟨flag, flagged⟩ := Option.isSome_iff_exists.mp flag
    rw [found, Option.getD_some, stored, flagged]
    refine ⟨isClass, ⟨member, present, rfl⟩, ?_⟩
    exact lazyMethod_onOwn ⟨member, present, .inl stored⟩ ⟨member, present, .inr flagged⟩ init
  | func isModule listed lowered =>
    have body := func_onOwn (within.fits.mem listed) stores
      (inside _ (TypedMember.mem_bodiesAll listed List.mem_cons_self)) lowered
    rw [ownClass?_module isModule] at body
    exact body
  | method isClass listed lowered =>
    have fits := within.fits.mem listed
    have body := func_onOwn fits stores (inside _ (TypedMember.mem_bodiesAll listed List.mem_cons_self)) lowered
    rw [ownClass?_class isClass] at body
    obtain ⟨rfl, ⟨member, found, -⟩, -⟩ := fits
    rw [found, Option.getD_some]
    exact ⟨isClass, ⟨member, List.mem_of_find?_eq_some found, rfl⟩, body⟩

end Lowering

/-- Only imports bring objects out of place. -/
theorem receiversInPlace_of_borrows {table : SymbolTable} {program : Program} {unit : Typing.CheckedUnit}
    (fits : unit.Fits table program) (borrows : unit.program.BorrowsInPlace unit.symbols) :
    unit.program.ReceiversInPlace unit.symbols := by
  intro body listed receiver asked
  obtain ⟨-, borrowed | ⟨isClass, same⟩⟩ :=
    (TypedProgram.standsIn fits.items body listed).inPlace asked
  · exact borrows body listed receiver asked borrowed
  · exact ⟨isClass, same⟩

/-- A unit with all objects in place has code, which takes every object at hand for one of its container. -/
theorem Typing.CheckedUnit.Fits.code {table : SymbolTable} {program : Program} {unit : Typing.CheckedUnit}
    (fits : unit.Fits table program) (places : unit.program.ReceiversInPlace unit.symbols) :
    ∃ artifacts, Lowering.lowerProgram unit.symbols unit.program = .ok artifacts ∧
      ∀ artifact ∈ artifacts, ∀ entry ∈ artifact.procedures,
        ∃ id, table.symbols.containers.size ≤ id ∧ entry.2.OnOwnOf (unit.symbols.get id) := by
  obtain ⟨artifacts, lowered⟩ := Lowering.lowerProgram_ok fits.items places
  refine ⟨artifacts, lowered, fun artifact listed entry made => ?_⟩
  obtain ⟨id, members, within, entry⟩ :=
    Lowering.lowerProgram_entries fits.items lowered artifact listed entry made
  refine ⟨id, within.new, entry.onOwnOf within ?_ places⟩
  intro own same member present
  unfold Symbols.ownClass? at same
  split at same
  · cases same
    exact fits.stored id within.new ‹_› member present
  · cases same

/-- In an accepted unit all objects that are not named are asked for in the code of their class, but for
those that imports bring. Where imports bring them in place too, the unit has code, and its code takes
every object at hand for one of its class. -/
theorem receivers_in_place {services : Services σ} {table : SymbolTable} {host host' : σ}
    {program : Program} {unit : Typing.CheckedUnit}
    (accepted : typecheck services table host program = (.ok unit, host')) :
    (unit.program.ReceiversInPlace unit.symbols ↔ unit.program.BorrowsInPlace unit.symbols) ∧
      (unit.program.BorrowsInPlace unit.symbols →
        ∃ artifacts, Lowering.lowerProgram unit.symbols unit.program = .ok artifacts ∧
          ∀ artifact ∈ artifacts, ∀ entry ∈ artifact.procedures, entry.2.OnOwn unit.symbols) := by
  have fits := typecheck_fits accepted
  have direct := receiversInPlace_of_borrows fits
  refine ⟨⟨fun all body listed receiver asked _ => all body listed receiver asked, direct⟩, ?_⟩
  intro borrows
  obtain ⟨artifacts, lowered, own⟩ := fits.code (direct borrows)
  refine ⟨artifacts, lowered, fun artifact listed entry made => ?_⟩
  obtain ⟨id, -, ownOf⟩ := own artifact listed entry made
  exact ownOf.onOwn

/-- The check that a unit borrows receivers, all of them in their place. -/
def borrowsInPlace (source : String) : Bool :=
  match Compiler.readSource source with
  | .ok program =>
    match typecheck {} {} () program with
    | (.ok unit, _) =>
      decide (∃ body ∈ unit.program.bodies, ∃ receiver ∈ body.2.receivers false,
        receiver.borrowed = true) && decide (unit.program.BorrowsInPlace unit.symbols)
    | _ => false
  | _ => false

/-- A method of a class picks a member by an import of its own class. -/
theorem receivers_in_place_of_own_import : ∃ (program : Program) (unit : Typing.CheckedUnit),
    Compiler.readSource
      "class B \x7b val x = 1 \x7d\nclass A(p: B) \x7b\nimport p.x\nlazy val y = x + 1\ndef f(): Int = x + y\n\x7d" =
      .ok program ∧
    typecheck {} {} () program = (.ok unit, ()) ∧
    (∃ body ∈ unit.program.bodies, ∃ receiver ∈ body.2.receivers false, receiver.borrowed = true) ∧
    unit.program.ReceiversInPlace unit.symbols ∧
    ∃ artifacts, Lowering.lowerProgram unit.symbols unit.program = .ok artifacts ∧
      ∀ artifact ∈ artifacts, ∀ entry ∈ artifact.procedures, entry.2.OnOwn unit.symbols := by
  have run : borrowsInPlace
      "class B \x7b val x = 1 \x7d\nclass A(p: B) \x7b\nimport p.x\nlazy val y = x + 1\ndef f(): Int = x + y\n\x7d" =
      true := by decide +kernel
  unfold borrowsInPlace at run
  split at run
  · rename_i program parsed
    split at run
    · rename_i unit host accepted
      simp only [Bool.and_eq_true, decide_eq_true_eq] at run
      obtain ⟨same, coded⟩ := receivers_in_place accepted
      exact ⟨program, unit, parsed, accepted, run.1, same.mpr run.2, coded run.2⟩
    · cases run
  · cases run

/-- The check of a unit with a borrowed receiver out of its place. -/
def refusesBorrowed (source : String) : Bool :=
  match Compiler.readSource source with
  | .ok program =>
    match typecheck {} {} () program with
    | (.ok unit, _) =>
      decide (¬ unit.program.ReceiversInPlace unit.symbols) &&
        match Lowering.lowerProgram unit.symbols unit.program with
        | .error error => decide (error = ⟨.needsInstance, 7, 16⟩)
        | .ok _ => false
    | _ => false
  | _ => false

/-- A module nested in a class uses what the class imports from an object that it has: the unit is
accepted, and there is no code for it. -/
theorem borrowed_receiver_out_of_place : ∃ (program : Program) (unit : Typing.CheckedUnit),
    Compiler.readSource
      "class B \x7b\nval x = 1\n\x7d\nclass A(p: B) \x7b\nimport p.x\nmodule M \x7b\ndef f(): Int = x\n\x7d\n\x7d\n" =
      .ok program ∧
    typecheck {} {} () program = (.ok unit, ()) ∧
    ¬ unit.program.ReceiversInPlace unit.symbols ∧
    Lowering.lowerProgram unit.symbols unit.program = .error ⟨.needsInstance, 7, 16⟩ := by
  have run : refusesBorrowed
      "class B \x7b\nval x = 1\n\x7d\nclass A(p: B) \x7b\nimport p.x\nmodule M \x7b\ndef f(): Int = x\n\x7d\n\x7d\n" =
      true := by decide +kernel
  unfold refusesBorrowed at run
  split at run
  · rename_i program parsed
    split at run
    · rename_i unit host accepted
      simp only [Bool.and_eq_true, decide_eq_true_eq] at run
      obtain ⟨misplaced, refused⟩ := run
      split at refused
      · rename_i error lowered
        refine ⟨program, unit, parsed, accepted, misplaced, ?_⟩
        rw [lowered, of_decide_eq_true refused]
      · cases refused
    · cases run
  · cases run

end ScriptShell
