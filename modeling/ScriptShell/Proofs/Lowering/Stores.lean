import ScriptShell.Proofs.Lowering.Slots
import ScriptShell.Proofs.Running.Objects
import ScriptShell.Proofs.Typing.Constructors

/-! What code sets. Expressions set no slot of an object. So methods set none by themselves, the accessor of
a lazy value sets the slots of that value, and a constructor those of its parameters and strict values. -/
namespace ScriptShell

/-- What gives a member of a class its value: the constructor if it is strict, and its accessor if it is
lazy. -/
def MemberSymbol.FilledBy (member : MemberSymbol) (qualified name : String) : Prop :=
  member.kind = .val ∧ name = Lowering.constructSymbol qualified ∨
    member.kind = .lazyVal ∧ name = Lowering.getter member.symbol

/-- The code of a class is to fill a slot: it gives its value to whichever member the slot belongs to. -/
def ContainerSymbol.Fills (cls : ContainerSymbol) (name : String) (slot : Nat) : Prop :=
  slot ∈ cls.slots ∧ ∀ member ∈ cls.members, slot ∈ member.slots → member.FilledBy cls.qualified name

/-- A slot belongs to no second member. -/
theorem ContainerSymbol.LaidOut.fills {cls : ContainerSymbol} {member : MemberSymbol} {name : String} {slot : Nat}
    (laid : cls.LaidOut) (listed : member ∈ cls.members) (own : slot ∈ member.slots)
    (filled : member.FilledBy cls.qualified name) : cls.Fills name slot := by
  refine ⟨ContainerSymbol.mem_slots.mpr ⟨member, listed, own⟩, fun other present shared => ?_⟩
  obtain ⟨i, first⟩ := List.getElem?_of_mem listed
  obtain ⟨j, second⟩ := List.getElem?_of_mem present
  obtain rfl := laid.member_unique first second own shared
  rw [first] at second
  cases second
  exact filled

namespace Lowering

variable {S : Symbols} {place : Place} {id : ContainerId} {members : List TypedMember}

theorem moduleMember_stores (member : MemberSymbol) : (moduleMember member).stores = [] := by
  unfold moduleMember
  split <;> rfl

theorem classMember_stores {object : Code} (own : object.stores = []) (member : MemberSymbol) :
    (classMember member object).stores = [] := by
  unfold classMember
  split <;> simp [own]

/-- The slots that the receiver of a call sets. -/
def Callee.stores : Callee → List Nat
  | .builtinShow | .function _ => []
  | .method _ receiver | .detached _ receiver => receiver.stores

theorem memberCallee_stores {object : Code} (own : object.stores = []) (member : MemberSymbol) :
    (memberCallee member object).stores = [] := by
  unfold memberCallee
  split <;> exact own

theorem applyCode_stores {callee : Callee} {args : List Code} (applied : callee.stores = [])
    (operands : Code.storesAll args = []) (place : Nat) (type : Ty) :
    (applyCode place callee type args).stores = [] := by
  cases callee with
  | function symbol => exact operands
  | method symbol receiver =>
    have own : receiver.stores = [] := applied
    simp [applyCode, own, operands]
  | detached symbol receiver =>
    have own : receiver.stores = [] := applied
    simp [applyCode, own, operands]
  | builtinShow =>
    have first : (args.headD (.word 0)).stores = [] := by
      cases args with
      | nil => rfl
      | cons arg rest => exact (List.append_eq_nil_iff.mp operands).1
    unfold applyCode showCode
    dsimp only
    split <;> simp only [Code.stores, Code.storesAll, CodeStep.storesAll, first, List.append_nil]

theorem binaryCode_stores {left right : Code} (one : left.stores = []) (two : right.stores = [])
    (op : BinaryOp) (type : Ty) : (binaryCode op type left right).stores = [] := by
  cases op <;> simp only [binaryCode]
  case equal | different => split <;> simp [one, two]
  all_goals simp [one, two]

theorem self_stores {span : Span} (run : self place span = .ok code) : code.stores = [] := by
  unfold self at run
  split at run
  · cases run
    rfl
  · cases run

theorem nameCode_stores {span : Span} {ref : Ref} (run : nameCode place span ref = .ok code) :
    code.stores = [] := by
  cases ref with
  | bound id =>
    simp only [nameCode] at run
    split at run
    · cases run
      rfl
    · cases run
  | member key ofClass onThis auto =>
    simp only [nameCode] at run
    split at run
    · obtain ⟨receiver, asked, run⟩ := Except.bind_ok.mp run
      split at run
      · cases run
        exact moduleMember_stores _
      · cases run
        exact moduleMember_stores _
      · cases run
        exact classMember_stores (self_stores asked) _
    · cases run
      exact moduleMember_stores _
  | container _ | builtinShow =>
    cases run
    rfl

mutual

/-- The code of an expression sets no slot. -/
theorem lowerExpr_stores : ∀ (e : TypedExpr) {place : Place} {code : Code},
    lowerExpr place e = .ok code → code.stores = []
  | .int _ _, _, _, run | .str _ _, _, _, run | .unit _, _, _, run => by
    rw [lowerExpr] at run
    cases run
    rfl
  | .this _ _, _, _, run => by
    rw [lowerExpr] at run
    exact self_stores run
  | .name _ _ _ _, _, _, run => by
    rw [lowerExpr] at run
    exact nameCode_stores run
  | .aliased _ _ _ path, _, _, run => by
    rw [lowerExpr] at run
    exact lowerExpr_stores path run
  | .select _ _ object _ (.member key true _ _), _, _, run => by
    simp only [lowerExpr, Except.bind_ok, Except.pure_ok] at run
    obtain ⟨receiver, lowered, rfl⟩ := run
    exact classMember_stores (lowerExpr_stores object lowered) _
  | .select _ _ _ _ (.member key false _ _), _, _, run => by
    simp only [lowerExpr, Except.pure_ok] at run
    subst run
    exact moduleMember_stores _
  | .select _ _ _ _ (.bound _), _, _, run | .select _ _ _ _ (.container _), _, _, run
  | .select _ _ _ _ .builtinShow, _, _, run => by
    simp only [lowerExpr, Except.ok.injEq] at run
    subst run
    rfl
  | .call _ _ callee args, _, _, run => by
    simp only [lowerExpr, Except.bind_ok, Except.pure_ok] at run
    obtain ⟨target, called, codes, lowered, rfl⟩ := run
    exact applyCode_stores (lowerCallee_stores callee called) (lowerAll_stores args lowered) _ _
  | .new _ _ _ args, _, _, run => by
    simp only [lowerExpr, Except.bind_ok, Except.pure_ok] at run
    obtain ⟨codes, lowered, rfl⟩ := run
    exact lowerAll_stores args lowered
  | .binary _ op left right, _, _, run => by
    simp only [lowerExpr, Except.bind_ok, Except.pure_ok] at run
    obtain ⟨one, first, two, second, rfl⟩ := run
    exact binaryCode_stores (lowerExpr_stores left first) (lowerExpr_stores right second) _ _
  | .unary _ op operand, _, _, run => by
    simp only [lowerExpr, Except.bind_ok, Except.pure_ok] at run
    obtain ⟨code, lowered, rfl⟩ := run
    have inner := lowerExpr_stores operand lowered
    cases op <;> exact inner
  | .cond _ _ condition thenBranch (some elseBranch), _, _, run => by
    simp only [lowerExpr, Except.bind_ok, Except.pure_ok] at run
    obtain ⟨test, tested, one, first, two, second, rfl⟩ := run
    simp [lowerExpr_stores condition tested, lowerExpr_stores thenBranch first,
      lowerExpr_stores elseBranch second]
  | .cond _ _ condition thenBranch none, _, _, run => by
    simp only [lowerExpr, Except.bind_ok, Except.pure_ok] at run
    obtain ⟨test, tested, one, first, rfl⟩ := run
    simp [lowerExpr_stores condition tested, lowerExpr_stores thenBranch first]
  | .block _ _ body, _, _, run => by
    simp only [lowerExpr, Except.bind_ok, Except.pure_ok] at run
    obtain ⟨steps, lowered, rfl⟩ := run
    exact lowerBody_stores body lowered

theorem lowerCallee_stores : ∀ (e : TypedExpr) {place : Place} {callee : Callee},
    lowerCallee place e = .ok callee → callee.stores = []
  | .aliased _ _ _ path, _, _, run => by
    rw [lowerCallee] at run
    exact lowerCallee_stores path run
  | .name _ _ _ (.member key ofClass _ _), place, callee, run => by
    simp only [lowerCallee] at run
    split at run
    · obtain ⟨receiver, asked, run⟩ := Except.bind_ok.mp run
      split at run
      · cases run
        exact self_stores asked
      · cases run
        rfl
    · cases run
      rfl
  | .select _ _ object _ (.member key true _ _), _, _, run => by
    simp only [lowerCallee, Except.bind_ok, Except.pure_ok] at run
    obtain ⟨receiver, lowered, rfl⟩ := run
    exact memberCallee_stores (lowerExpr_stores object lowered) _
  | .select _ _ _ _ (.member key false _ _), _, _, run => by
    simp only [lowerCallee, Except.pure_ok] at run
    subst run
    rfl
  | .name _ _ _ (.bound _), _, _, run | .name _ _ _ (.container _), _, _, run
  | .name _ _ _ .builtinShow, _, _, run | .select _ _ _ _ (.bound _), _, _, run
  | .select _ _ _ _ (.container _), _, _, run | .select _ _ _ _ .builtinShow, _, _, run
  | .int _ _, _, _, run | .str _ _, _, _, run | .unit _, _, _, run | .this _ _, _, _, run
  | .call _ _ _ _, _, _, run | .new _ _ _ _, _, _, run | .binary _ _ _ _, _, _, run
  | .unary _ _ _, _, _, run | .cond _ _ _ _ _, _, _, run | .block _ _ _, _, _, run => by
    simp only [lowerCallee, Except.ok.injEq] at run
    subst run
    rfl

theorem lowerAll_stores : ∀ (args : List TypedExpr) {place : Place} {codes : List Code},
    lowerAll place args = .ok codes → Code.storesAll codes = []
  | [], _, _, run => by
    rw [lowerAll] at run
    cases run
    rfl
  | arg :: rest, _, _, run => by
    simp only [lowerAll, Except.bind_ok, Except.pure_ok] at run
    obtain ⟨code, lowered, codes, others, rfl⟩ := run
    simp [lowerExpr_stores arg lowered, lowerAll_stores rest others]

theorem lowerBody_stores : ∀ (body : List TypedStmt) {place : Place} {steps : List CodeStep},
    lowerBody place body = .ok steps → CodeStep.storesAll steps = []
  | [], _, _, run => by
    rw [lowerBody] at run
    cases run
    rfl
  | .val _ _ _ _ init :: rest, _, _, run => by
    simp only [lowerBody, Except.bind_ok, Except.pure_ok] at run
    obtain ⟨code, lowered, steps, others, rfl⟩ := run
    simp [lowerExpr_stores init lowered, lowerBody_stores rest others]
  | .expr value :: rest, _, _, run => by
    simp only [lowerBody, Except.bind_ok, Except.pure_ok] at run
    obtain ⟨code, lowered, steps, others, rfl⟩ := run
    simp [lowerExpr_stores value lowered, lowerBody_stores rest others]

end

theorem moduleSteps_stores (run : moduleSteps S members = .ok steps) : CodeStep.storesAll steps = [] := by
  induction members generalizing steps with
  | nil =>
    cases run
    rfl
  | cons member rest ih =>
    cases member with
    | imports _ | foreign _ _ | func _ _ _ _ | container _ => exact ih run
    | expr span value =>
      simp only [moduleSteps, Except.bind_ok, Except.pure_ok] at run
      obtain ⟨code, lowered, others, more, rfl⟩ := run
      simp [lowerExpr_stores value lowered, ih more]
    | val decl key init =>
      rw [moduleSteps] at run
      split at run
      · simp only [Except.bind_ok, Except.pure_ok] at run
        obtain ⟨code, lowered, others, more, rfl⟩ := run
        simp [lowerExpr_stores init lowered, ih more]
      · exact ih run

theorem classSteps_stores (laid : (S.get id).LaidOut) (fits : TypedMember.FitsAll base S id members)
    (run : classSteps S members = .ok steps) :
    ∀ slot ∈ CodeStep.storesAll steps,
      ∃ member ∈ (S.get id).members, slot ∈ member.slots ∧ member.kind = .val := by
  induction members generalizing steps with
  | nil =>
    cases run
    simp
  | cons member rest ih =>
    cases member with
    | imports _ | foreign _ _ | func _ _ _ _ | container _ => exact ih fits.2 run
    | expr span value =>
      simp only [classSteps, Except.bind_ok, Except.pure_ok] at run
      obtain ⟨code, lowered, others, more, rfl⟩ := run
      rw [CodeStep.storesAll, lowerExpr_stores value lowered, List.nil_append]
      exact ih fits.2 more
    | val decl key init =>
      rw [classSteps] at run
      split at run
      · rename_i mode
        simp only [Except.bind_ok, Except.pure_ok] at run
        obtain ⟨code, lowered, others, more, rfl⟩ := run
        rw [CodeStep.storesAll, lowerExpr_stores init lowered, List.nil_append, List.forall_mem_cons]
        refine ⟨?_, ih fits.2 more⟩
        obtain ⟨rfl, ⟨member, found, -, -, -, isVal, -⟩, -⟩ := fits.1
        rw [mode] at isVal
        have listed : member ∈ (S.get id).members := List.mem_of_find?_eq_some found
        have placed := laid.placed member listed
        rw [MemberSymbol.Placed, isVal] at placed
        obtain ⟨slot, stored⟩ := Option.isSome_iff_exists.mp placed.1
        rw [found, Option.getD_some, stored]
        exact ⟨member, listed, MemberSymbol.mem_slots.mpr (.inl stored), isVal⟩
      · exact ih fits.2 run

/-- What a procedure sets is what it is to fill, and only the code of classes sets anything. -/
theorem Entry.fills {bodies : List (ContainerId × TypedExpr)} (made : Entry S id members entry)
    (within : Within base S bodies id members)
    (constructs : (S.get id).isClass = true → (S.get id).Constructs) :
    ∀ slot ∈ entry.2.stores, (S.get id).isClass = true ∧ (S.get id).Fills entry.1 slot := by
  cases made with
  | ensure isModule lowered | initialise isModule _ _ lowered =>
    have none := moduleSteps_stores lowered
    simp [Procedure.stores, none]
  | construct isClass lowered =>
    have whole := constructs isClass
    rw [Procedure.stores, List.forall_mem_append, whole.stores]
    constructor
    · intro slot listed
      obtain ⟨member, field, own⟩ := List.mem_flatMap.mp listed
      exact ⟨isClass, whole.laidOut.fills (List.mem_of_mem_filter field) own
        (.inl ⟨whole.fields member field, rfl⟩)⟩
    · intro slot listed
      obtain ⟨member, present, own, isVal⟩ := classSteps_stores whole.laidOut within.fits lowered slot listed
      exact ⟨isClass, whole.laidOut.fills present own (.inl ⟨isVal, rfl⟩)⟩
  | strict isModule listed mode => simp [Procedure.stores, strictAccessor]
  | lazy isModule listed mode lowered =>
    have none := lowerExpr_stores _ lowered
    simp [Procedure.stores, lazyAccessor, none]
  | @lazySlot init code key decl isClass listed mode lowered =>
    obtain ⟨rfl, ⟨member, found, -, -, -, isLazy, -⟩, -⟩ := within.fits.mem listed
    rw [mode] at isLazy
    have present : member ∈ (S.get id).members := List.mem_of_find?_eq_some found
    have laid := (constructs isClass).laidOut
    have placed := laid.placed member present
    rw [MemberSymbol.Placed, isLazy] at placed
    obtain ⟨slot, stored⟩ := Option.isSome_iff_exists.mp placed.1
    obtain ⟨flag, flagged⟩ := Option.isSome_iff_exists.mp placed.2
    have sets : (lazyMethod member.symbol slot flag code).stores = member.slots := by
      simp [Procedure.stores, lazyMethod, lowerExpr_stores init lowered, MemberSymbol.slots, stored, flagged]
    rw [found, Option.getD_some, stored, flagged, Option.getD_some, Option.getD_some, sets]
    exact fun number own => ⟨isClass, laid.fills present own (.inr ⟨isLazy, rfl⟩)⟩
  | func isModule listed lowered =>
    have none := lowerExpr_stores _ lowered
    simp [Procedure.stores, none]
  | method isClass listed lowered =>
    have none := lowerExpr_stores _ lowered
    simp [Procedure.stores, none]

end Lowering

end ScriptShell
