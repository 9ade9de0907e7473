import ScriptShell.Proofs.Termination.Calls
import ScriptShell.Proofs.Soundness.Code
import ScriptShell.Proofs.Lowering.Units

/-! Code of units is in order. The symbols that code calls are paths of members, generated names, or the
names of foreign functions, so code calls the functions that keep the frames only if a foreign function
is declared by such a name. -/
namespace ScriptShell

/-- The functions that no unit may declare as foreign ones: those that keep frames and module states. -/
def reservedSymbols : List String := Primitive.initModule.symbol :: Machine.frameSymbols

namespace Symbols

/-- No foreign function is declared by a reserved name. -/
def SparesFrames (S : Symbols) : Prop := ∀ own ∈ S.foreigns, own.1 ∉ reservedSymbols

/-- The code of every member but a foreign function goes by its path. -/
def Titled (S : Symbols) : Prop := ∀ id, ∀ member ∈ (S.get id).members, member.Titled

/-- No member goes by the name of a function that keeps frames. -/
def FrameFree (S : Symbols) : Prop :=
  ∀ key member, S.member? key = some member → member.symbol ∉ Machine.frameSymbols

theorem mem_foreigns {S : Symbols} {id : ContainerId} {member : MemberSymbol}
    (listed : member ∈ (S.get id).members) (kind : member.kind = .foreign) :
    (member.symbol, member.signature) ∈ S.foreigns := by
  have inside : S.get id ∈ S.containers.toList := by
    unfold Symbols.get at listed ⊢
    rw [Array.getD_eq_getD_getElem?] at listed ⊢
    cases found : S.containers[id]? with
    | none => simp [found] at listed
    | some container => simpa using Array.mem_of_getElem? found
  refine List.mem_flatMap.mpr ⟨S.get id, inside, List.mem_filterMap.mpr ⟨member, listed, ?_⟩⟩
  simp [kind]

theorem frame_not_path {symbol : String} (frame : symbol ∈ Machine.frameSymbols) : '.' ∉ symbol.toList := by
  simp only [Machine.frameSymbols, List.mem_cons, List.not_mem_nil, or_false] at frame
  obtain rfl | rfl := frame <;> decide

theorem Titled.frameFree {S : Symbols} (titled : S.Titled) (spares : S.SparesFrames) : S.FrameFree := by
  intro key member found frame
  have listed : member ∈ (S.get key.owner).members := List.mem_of_find?_eq_some found
  by_cases kind : member.kind = .foreign
  · exact spares _ (mem_foreigns listed kind) (List.mem_cons_of_mem _ frame)
  · obtain empty | ⟨owner, path⟩ := titled key.owner member listed kind
    · rw [empty] at frame
      simp [Machine.frameSymbols, Primitive.symbol] at frame
    · apply frame_not_path frame
      rw [path]
      simp

end Symbols

namespace Lowering

/-- No symbol of a list keeps frames. -/
def Plain (symbols : List String) : Prop := ∀ symbol ∈ symbols, symbol ∉ Machine.frameSymbols

theorem Plain.append {first rest : List String} (one : Plain first) (two : Plain rest) :
    Plain (first ++ rest) :=
  fun symbol listed => (List.mem_append.mp listed).elim (one symbol) (two symbol)

theorem Plain.cons {symbol : String} {rest : List String} (one : symbol ∉ Machine.frameSymbols)
    (two : Plain rest) : Plain (symbol :: rest) :=
  List.forall_mem_cons.mpr ⟨one, two⟩

theorem plain_nil : Plain [] := by rintro _ ⟨⟩

theorem getter_plain (symbol : String) : getter symbol ∉ Machine.frameSymbols := by
  intro frame
  simp only [Machine.frameSymbols, List.mem_cons, List.not_mem_nil, or_false] at frame
  obtain same | same := frame <;>
    (have ends := congrArg (fun text => text.toList.getLast?) same
     simp [getter, Primitive.symbol] at ends)

theorem ensureSymbol_plain (qualified : String) : ensureSymbol qualified ∉ Machine.frameSymbols :=
  fun frame => Symbols.frame_not_path frame (by simp [ensureSymbol])

theorem initSymbol_plain (qualified : String) : initSymbol qualified ∉ Machine.frameSymbols :=
  fun frame => Symbols.frame_not_path frame (by simp [initSymbol])

theorem constructSymbol_plain (qualified : String) : constructSymbol qualified ∉ Machine.frameSymbols :=
  fun frame => Symbols.frame_not_path frame (by simp [constructSymbol])

variable {S : Symbols} {place : Place}

/-- The member that a reference stands for, or none. -/
theorem member_plain (free : S.FrameFree) (key : MemberKey) :
    ((S.member? key).getD default).symbol ∉ Machine.frameSymbols := by
  cases found : S.member? key with
  | some member => exact free key member found
  | none => decide

theorem moduleMember_plain {member : MemberSymbol} (own : member.symbol ∉ Machine.frameSymbols) :
    Plain (moduleMember member).calls := by
  unfold moduleMember
  split
  · exact plain_nil
  · exact .cons (getter_plain _) plain_nil
  · exact .cons (getter_plain _) plain_nil
  · exact .cons own plain_nil
  · exact .cons own plain_nil
  · exact plain_nil

theorem classMember_plain {member : MemberSymbol} (own : member.symbol ∉ Machine.frameSymbols)
    {object : Code} (receiver : Plain object.calls) : Plain (classMember member object).calls := by
  unfold classMember
  split
  · exact receiver
  · exact .cons (getter_plain _) (receiver.append plain_nil)
  · exact .cons own (receiver.append plain_nil)
  · exact receiver.append plain_nil
  · exact receiver.append (.cons own plain_nil)
  · exact receiver.append plain_nil

/-- What a callee calls and computes. -/
def Callee.calls : Callee → List String
  | .builtinShow => []
  | .function symbol => [symbol]
  | .method symbol receiver | .detached symbol receiver => symbol :: receiver.calls

theorem memberCallee_plain {member : MemberSymbol} (own : member.symbol ∉ Machine.frameSymbols)
    {object : Code} (receiver : Plain object.calls) : Plain (memberCallee member object).calls := by
  unfold memberCallee
  split <;> exact .cons own receiver

theorem callsAll_headD {args : List Code} (plain : Plain (Code.callsAll args)) :
    Plain (args.headD (.word 0)).calls := by
  cases args with
  | nil => exact plain_nil
  | cons first rest => exact fun symbol listed => plain symbol (List.mem_append_left _ listed)

theorem applyCode_plain {callee : Callee} {args : List Code} (own : Plain callee.calls)
    (operands : Plain (Code.callsAll args)) (span : Nat) (type : Ty) :
    Plain (applyCode span callee type args).calls := by
  cases callee with
  | builtinShow =>
    have first := callsAll_headD operands
    show Plain (showCode span type (args.headD (.word 0))).calls
    unfold showCode
    split
    · exact .cons (by decide) (first.append plain_nil)
    · exact .cons (by decide) (first.append plain_nil)
    · exact .cons (by decide) (first.append plain_nil)
    · exact first.append plain_nil
  | function symbol => exact .cons (own symbol List.mem_cons_self) operands
  | method symbol receiver =>
    refine .cons (own symbol List.mem_cons_self) (Plain.append ?_ operands)
    exact fun symbol listed => own symbol (List.mem_cons_of_mem _ listed)
  | detached symbol receiver =>
    refine Plain.append (fun symbol listed => own symbol (List.mem_cons_of_mem _ listed)) ?_
    exact Plain.append (.cons (own symbol List.mem_cons_self) operands) plain_nil

theorem binaryCode_plain {left right : Code} (one : Plain left.calls) (two : Plain right.calls)
    (op : BinaryOp) (type : Ty) : Plain (binaryCode op type left right).calls := by
  have both : Plain (left.calls ++ (right.calls ++ [])) := one.append (two.append plain_nil)
  cases op with
  | or | and | less | lessEqual | greater | greaterEqual | add | sub | mul => exact one.append two
  | concat | div | mod => exact .cons (by decide) both
  | equal =>
    unfold binaryCode
    dsimp only
    split
    · exact .cons (by decide) both
    · exact one.append two
  | different =>
    unfold binaryCode
    dsimp only
    split
    · exact Plain.append (.cons (by decide) both) plain_nil
    · exact one.append two

theorem self_plain (run : self place span = .ok code) : Plain code.calls := by
  unfold self at run
  split at run
  · cases run
    exact plain_nil
  · cases run

theorem nameCode_plain (free : place.symbols.FrameFree) {ref : Ref}
    (run : nameCode place span ref = .ok code) : Plain code.calls := by
  cases ref with
  | bound id =>
    simp only [nameCode] at run
    split at run
    · cases run
      exact plain_nil
    · cases run
  | member key ofClass onThis auto =>
    have own := member_plain free key
    simp only [nameCode] at run
    split at run
    · obtain ⟨receiver, asked, run⟩ := Except.bind_ok.mp run
      split at run
      · cases run
        exact moduleMember_plain own
      · cases run
        exact moduleMember_plain own
      · cases run
        exact classMember_plain own (self_plain asked)
    · cases run
      exact moduleMember_plain own
  | container _ | builtinShow =>
    cases run
    exact plain_nil

mutual

/-- The calls of an expression. -/
theorem lowerExpr_plain : ∀ (e : TypedExpr) {place : Place} {code : Code}, place.symbols.FrameFree →
    lowerExpr place e = .ok code → Plain code.calls
  | .int _ _, _, _, _, run | .str _ _, _, _, _, run | .unit _, _, _, _, run => by
    rw [lowerExpr] at run
    cases run
    exact plain_nil
  | .this _ _, _, _, _, run => by
    rw [lowerExpr] at run
    exact self_plain run
  | .name _ _ _ _, _, _, free, run => by
    rw [lowerExpr] at run
    exact nameCode_plain free run
  | .aliased _ _ _ path, _, _, free, run => by
    rw [lowerExpr] at run
    exact lowerExpr_plain path free run
  | .select _ _ object _ (.member key true _ _), _, _, free, run => by
    simp only [lowerExpr, Except.bind_ok, Except.pure_ok] at run
    obtain ⟨receiver, lowered, rfl⟩ := run
    exact classMember_plain (member_plain free key) (lowerExpr_plain object free lowered)
  | .select _ _ _ _ (.member key false _ _), _, _, free, run => by
    simp only [lowerExpr, Except.pure_ok] at run
    subst run
    exact moduleMember_plain (member_plain free key)
  | .select _ _ _ _ (.bound _), _, _, _, run | .select _ _ _ _ (.container _), _, _, _, run
  | .select _ _ _ _ .builtinShow, _, _, _, run => by
    simp only [lowerExpr, Except.ok.injEq] at run
    subst run
    exact plain_nil
  | .call _ _ callee args, _, _, free, run => by
    simp only [lowerExpr, Except.bind_ok, Except.pure_ok] at run
    obtain ⟨target, called, codes, lowered, rfl⟩ := run
    exact applyCode_plain (lowerCallee_plain callee free called) (lowerAll_plain args free lowered) _ _
  | .new _ _ _ args, _, _, free, run => by
    simp only [lowerExpr, Except.bind_ok, Except.pure_ok] at run
    obtain ⟨codes, lowered, rfl⟩ := run
    exact .cons (constructSymbol_plain _) (lowerAll_plain args free lowered)
  | .binary _ op left right, _, _, free, run => by
    simp only [lowerExpr, Except.bind_ok, Except.pure_ok] at run
    obtain ⟨one, first, two, second, rfl⟩ := run
    exact binaryCode_plain (lowerExpr_plain left free first) (lowerExpr_plain right free second) _ _
  | .unary _ op operand, _, _, free, run => by
    simp only [lowerExpr, Except.bind_ok, Except.pure_ok] at run
    obtain ⟨code, lowered, rfl⟩ := run
    have inner := lowerExpr_plain operand free lowered
    cases op <;> exact inner
  | .cond _ _ condition thenBranch (some elseBranch), _, _, free, run => by
    simp only [lowerExpr, Except.bind_ok, Except.pure_ok] at run
    obtain ⟨test, tested, one, first, two, second, rfl⟩ := run
    exact ((lowerExpr_plain condition free tested).append (lowerExpr_plain thenBranch free first)).append
      (lowerExpr_plain elseBranch free second)
  | .cond _ _ condition thenBranch none, _, _, free, run => by
    simp only [lowerExpr, Except.bind_ok, Except.pure_ok] at run
    obtain ⟨test, tested, one, first, rfl⟩ := run
    have branch := (lowerExpr_plain thenBranch free first).append plain_nil
    exact ((lowerExpr_plain condition free tested).append branch).append plain_nil
  | .block _ _ body, _, _, free, run => by
    simp only [lowerExpr, Except.bind_ok, Except.pure_ok] at run
    obtain ⟨steps, lowered, rfl⟩ := run
    exact lowerBody_plain body free lowered

theorem lowerCallee_plain : ∀ (e : TypedExpr) {place : Place} {callee : Callee},
    place.symbols.FrameFree → lowerCallee place e = .ok callee → Plain callee.calls
  | .aliased _ _ _ path, _, _, free, run => by
    rw [lowerCallee] at run
    exact lowerCallee_plain path free run
  | .name _ _ _ (.member key ofClass _ _), place, callee, free, run => by
    have own := member_plain free key
    simp only [lowerCallee] at run
    split at run
    · obtain ⟨receiver, asked, run⟩ := Except.bind_ok.mp run
      split at run
      · cases run
        exact .cons own (self_plain asked)
      · cases run
        exact .cons own plain_nil
    · cases run
      exact .cons own plain_nil
  | .select _ _ object _ (.member key true _ _), _, _, free, run => by
    simp only [lowerCallee, Except.bind_ok, Except.pure_ok] at run
    obtain ⟨receiver, lowered, rfl⟩ := run
    exact memberCallee_plain (member_plain free key) (lowerExpr_plain object free lowered)
  | .select _ _ _ _ (.member key false _ _), _, _, free, run => by
    simp only [lowerCallee, Except.pure_ok] at run
    subst run
    exact .cons (member_plain free key) plain_nil
  | .name _ _ _ (.bound _), _, _, _, run | .name _ _ _ (.container _), _, _, _, run
  | .name _ _ _ .builtinShow, _, _, _, run | .select _ _ _ _ (.bound _), _, _, _, run
  | .select _ _ _ _ (.container _), _, _, _, run | .select _ _ _ _ .builtinShow, _, _, _, run
  | .int _ _, _, _, _, run | .str _ _, _, _, _, run | .unit _, _, _, _, run | .this _ _, _, _, _, run
  | .call _ _ _ _, _, _, _, run | .new _ _ _ _, _, _, _, run | .binary _ _ _ _, _, _, _, run
  | .unary _ _ _, _, _, _, run | .cond _ _ _ _ _, _, _, _, run | .block _ _ _, _, _, _, run => by
    simp only [lowerCallee, Except.ok.injEq] at run
    subst run
    exact plain_nil

theorem lowerAll_plain : ∀ (args : List TypedExpr) {place : Place} {codes : List Code},
    place.symbols.FrameFree → lowerAll place args = .ok codes → Plain (Code.callsAll codes)
  | [], _, _, _, run => by
    rw [lowerAll] at run
    cases run
    exact plain_nil
  | arg :: rest, _, _, free, run => by
    simp only [lowerAll, Except.bind_ok, Except.pure_ok] at run
    obtain ⟨code, lowered, codes, others, rfl⟩ := run
    exact (lowerExpr_plain arg free lowered).append (lowerAll_plain rest free others)

theorem lowerBody_plain : ∀ (body : List TypedStmt) {place : Place} {steps : List CodeStep},
    place.symbols.FrameFree → lowerBody place body = .ok steps → Plain (CodeStep.callsAll steps)
  | [], _, _, _, run => by
    rw [lowerBody] at run
    cases run
    exact plain_nil
  | .val _ _ _ _ init :: rest, _, _, free, run => by
    simp only [lowerBody, Except.bind_ok, Except.pure_ok] at run
    obtain ⟨code, lowered, steps, others, rfl⟩ := run
    exact (lowerExpr_plain init free lowered).append (lowerBody_plain rest (by exact free) others)
  | .expr value :: rest, _, _, free, run => by
    simp only [lowerBody, Except.bind_ok, Except.pure_ok] at run
    obtain ⟨code, lowered, steps, others, rfl⟩ := run
    exact (lowerExpr_plain value free lowered).append (lowerBody_plain rest free others)

end

theorem moduleSteps_plain (free : S.FrameFree) {members : List TypedMember}
    (run : moduleSteps S members = .ok steps) : Plain (CodeStep.callsAll steps) := by
  fun_induction moduleSteps S members generalizing steps with
  | case1 =>
    cases run
    exact plain_nil
  | case2 decl key init rest mode ih =>
    simp only [Except.bind_ok, Except.pure_ok] at run
    obtain ⟨code, lowered, others, more, rfl⟩ := run
    exact (lowerExpr_plain init (by exact free) lowered).append (ih more)
  | case3 decl key init rest mode ih => exact ih run
  | case4 span value rest ih =>
    simp only [Except.bind_ok, Except.pure_ok] at run
    obtain ⟨code, lowered, others, more, rfl⟩ := run
    exact (lowerExpr_plain value (by exact free) lowered).append (ih more)
  | case5 first rest _ _ ih => exact ih run

theorem classSteps_plain (free : S.FrameFree) {members : List TypedMember}
    (run : classSteps S members = .ok steps) : Plain (CodeStep.callsAll steps) := by
  fun_induction classSteps S members generalizing steps with
  | case1 =>
    cases run
    exact plain_nil
  | case2 decl key init rest mode ih =>
    simp only [Except.bind_ok, Except.pure_ok] at run
    obtain ⟨code, lowered, others, more, rfl⟩ := run
    exact (lowerExpr_plain init (by exact free) lowered).append (ih more)
  | case3 decl key init rest mode ih => exact ih run
  | case4 span value rest ih =>
    simp only [Except.bind_ok, Except.pure_ok] at run
    obtain ⟨code, lowered, others, more, rfl⟩ := run
    exact (lowerExpr_plain value (by exact free) lowered).append (ih more)
  | case5 first rest _ _ ih => exact ih run

/-- Every procedure of a unit is in order. -/
theorem Entry.orderly {id : ContainerId} {members : List TypedMember} (free : S.FrameFree)
    (made : Entry S id members entry) : entry.2.Orderly entry.1 := by
  cases made with
  | ensure isModule lowered =>
    exact ⟨ensureSymbol_plain _, moduleSteps_plain free lowered, by rintro ⟨⟩⟩
  | initialise isModule listed shadows lowered =>
    refine ⟨initSymbol_plain _, ?_, by rintro ⟨⟩⟩
    exact (moduleSteps_plain free lowered).append plain_nil
  | construct isClass lowered =>
    exact ⟨constructSymbol_plain _, classSteps_plain free lowered, by rintro ⟨⟩⟩
  | strict isModule listed mode =>
    refine ⟨getter_plain _, Plain.cons (ensureSymbol_plain _) plain_nil, fun _ => ⟨⟨_, rfl⟩, ?_⟩⟩
    intro symbol called
    obtain rfl := List.mem_singleton.mp called
    exact ⟨_, rfl⟩
  | lazy isModule listed mode lowered =>
    refine ⟨getter_plain _, Plain.cons (ensureSymbol_plain _) ?_, by rintro ⟨⟩⟩
    have init := lowerExpr_plain _ (by exact free) lowered
    exact (init.append plain_nil).append plain_nil
  | lazySlot isClass listed mode lowered =>
    have init := lowerExpr_plain _ (by exact free) lowered
    exact ⟨getter_plain _, (init.append plain_nil).append plain_nil, by rintro ⟨⟩⟩
  | func isModule listed lowered | method isClass listed lowered =>
    exact ⟨member_plain free _, lowerExpr_plain _ (by exact free) lowered, by rintro ⟨⟩⟩

/-- The artifacts of a unit are in order. -/
theorem lowerProgram_orderly {program : TypedProgram} (free : S.FrameFree)
    (items : ∀ item ∈ program.items, item.Fits base S) (lowered : lowerProgram S program = .ok artifacts)
    (listed : artifact ∈ artifacts) : artifact.Orderly := by
  intro entry present
  obtain ⟨id, members, -, made⟩ := lowerProgram_entries items lowered artifact listed entry present
  exact made.orderly free

end Lowering

end ScriptShell
