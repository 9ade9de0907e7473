import ScriptShell.Proofs.Typing.Units
import ScriptShell.Code.Lowering

/-! The object at hand. Code of a class works on the object it belongs to without naming it. A tree
asks for such an object at `this` and at members that are named alone; names that an import expands
may ask for one too, and these were looked up from the place of the import. -/
namespace ScriptShell

/-- An object that is not named: its class, and whether an import brought it. -/
structure Receiver where
  cls : ContainerId
  borrowed : Bool
deriving Repr, DecidableEq

/-- The object that a name asks for. -/
def Ref.receivers (borrowed : Bool) : Ref → List Receiver
  | .member key _ true _ => [⟨key.owner, borrowed⟩]
  | _ => []

mutual

/-- The objects that an expression asks for. -/
def TypedExpr.receivers (borrowed : Bool) : TypedExpr → List Receiver
  | .int _ _ | .str _ _ | .unit _ => []
  | .this _ cls => [⟨cls, borrowed⟩]
  | .name _ _ _ ref => ref.receivers borrowed
  | .aliased _ _ _ path => path.receivers true
  | .select _ _ object _ _ => object.receivers borrowed
  | .call _ _ callee args => callee.receivers borrowed ++ TypedExpr.receiversAll borrowed args
  | .new _ _ target args => target.receivers borrowed ++ TypedExpr.receiversAll borrowed args
  | .binary _ _ left right => left.receivers borrowed ++ right.receivers borrowed
  | .unary _ _ operand => operand.receivers borrowed
  | .cond _ _ condition thenBranch elseBranch =>
    condition.receivers borrowed ++ thenBranch.receivers borrowed ++
      match elseBranch with
      | some elseBranch => elseBranch.receivers borrowed
      | none => []
  | .block _ _ body => TypedStmt.receiversAll borrowed body

def TypedExpr.receiversAll (borrowed : Bool) : List TypedExpr → List Receiver
  | [] => []
  | expr :: rest => expr.receivers borrowed ++ TypedExpr.receiversAll borrowed rest

def TypedStmt.receiversAll (borrowed : Bool) : List TypedStmt → List Receiver
  | [] => []
  | .val _ _ _ _ init :: rest => init.receivers borrowed ++ TypedStmt.receiversAll borrowed rest
  | .expr value :: rest => value.receivers borrowed ++ TypedStmt.receiversAll borrowed rest

end

mutual

/-- The expressions of a member, each with the container whose code it is. -/
def TypedMember.bodies (id : ContainerId) : TypedMember → List (ContainerId × TypedExpr)
  | .val _ _ init => [(id, init)]
  | .func _ _ _ body => [(id, body)]
  | .expr _ value => [(id, value)]
  | .container decl => decl.bodies
  | .imports _ | .foreign _ _ => []

def TypedMember.bodiesAll (id : ContainerId) : List TypedMember → List (ContainerId × TypedExpr)
  | [] => []
  | member :: rest => member.bodies id ++ TypedMember.bodiesAll id rest

def TypedContainer.bodies : TypedContainer → List (ContainerId × TypedExpr)
  | .mk _ id members => TypedMember.bodiesAll id members

end

namespace TypedProgram

def bodies (program : TypedProgram) : List (ContainerId × TypedExpr) :=
  program.items.flatMap TypedContainer.bodies

end TypedProgram

/-- An object is asked for in the code of its own class. -/
def Receiver.InPlace (S : Symbols) (owner : ContainerId) (receiver : Receiver) : Prop :=
  (S.get owner).isClass = true ∧ receiver.cls = owner

instance : Decidable (Receiver.InPlace S owner receiver) :=
  inferInstanceAs (Decidable (_ ∧ _))

/-- Every object that some bodies ask for is asked for in the code of its own class. -/
def Receiver.InPlaceAll (S : Symbols) (bodies : List (ContainerId × TypedExpr)) : Prop :=
  ∀ body ∈ bodies, ∀ receiver ∈ body.2.receivers false, receiver.InPlace S body.1

namespace TypedProgram

/-- Every object that is not named is asked for in the code of its own class. -/
def ReceiversInPlace (S : Symbols) (program : TypedProgram) : Prop :=
  Receiver.InPlaceAll S program.bodies

/-- Imports bring such objects only into the code of their own class. -/
def BorrowsInPlace (S : Symbols) (program : TypedProgram) : Prop :=
  ∀ body ∈ program.bodies, ∀ receiver ∈ body.2.receivers false,
    receiver.borrowed = true → receiver.InPlace S body.1

end TypedProgram

instance (S : Symbols) (program : TypedProgram) : Decidable (program.ReceiversInPlace S) :=
  inferInstanceAs (Decidable (∀ body ∈ program.bodies, ∀ receiver ∈ body.2.receivers false,
    receiver.InPlace S body.1))

instance (S : Symbols) (program : TypedProgram) : Decidable (program.BorrowsInPlace S) :=
  inferInstanceAs (Decidable (∀ body ∈ program.bodies, ∀ receiver ∈ body.2.receivers false,
    receiver.borrowed = true → receiver.InPlace S body.1))

theorem TypedExpr.mem_receiversAll {args : List TypedExpr} :
    receiver ∈ TypedExpr.receiversAll borrowed args ↔
      ∃ arg ∈ args, receiver ∈ arg.receivers borrowed := by
  induction args with
  | nil => simp [TypedExpr.receiversAll]
  | cons arg rest ih => simp [TypedExpr.receiversAll, ih]

theorem TypedStmt.mem_receiversAll {scope : Scope} {locals : List (String × Local)}
    {body : List TypedStmt} :
    receiver ∈ TypedStmt.receiversAll borrowed body ↔
      ∃ part ∈ TypedStmt.parts scope locals body, receiver ∈ part.2.receivers borrowed := by
  induction body generalizing locals with
  | nil => simp [TypedStmt.receiversAll, TypedStmt.parts]
  | cons stmt rest ih =>
    cases stmt with
    | val span name ascription id init =>
      simp [TypedStmt.receiversAll, TypedStmt.parts, ← ih]
    | expr value => simp [TypedStmt.receiversAll, TypedStmt.parts, ← ih]

theorem TypedStmt.scope_of_part {scope : Scope} {locals : List (String × Local)}
    {body : List TypedStmt} (listed : part ∈ TypedStmt.parts scope locals body) :
    ∃ own, part.1 = { locals := own } :: scope := by
  induction body generalizing locals with
  | nil => simp [TypedStmt.parts] at listed
  | cons stmt rest ih =>
    cases stmt <;> simp only [TypedStmt.parts, List.mem_cons] at listed
    all_goals
      obtain rfl | listed := listed
      · exact ⟨_, rfl⟩
      · exact ih listed

theorem Scope.isClass_of_innermost {S : Symbols} {scope : Scope}
    (innermost : scope.innermostClass? S = some cls) : (S.get cls).isClass = true := by
  induction scope with
  | nil => cases innermost
  | cons frame outer ih =>
    unfold Scope.innermostClass? at innermost
    split at innermost
    · split at innermost
      · cases innermost
        assumption
      · cases innermost
    · exact ih innermost

/-- What is asked for is a class, and without an import it is the innermost container. Below an import
path the flag says that nothing counts as asked for directly. -/
theorem WellTyped.borrowed_or_inside (typed : WellTyped S callee scope e) :
    ∀ borrowed, ∀ receiver ∈ e.receivers borrowed, (S.get receiver.cls).isClass = true ∧
      (receiver.borrowed = true ∨ borrowed = false ∧ scope.innermostClass? S = some receiver.cls) := by
  intro borrowed receiver asked
  induction typed generalizing borrowed with
  | int | str | unit | bound _ _ | container | builtinShow =>
    simp [TypedExpr.receivers, Ref.receivers] at asked
  | this inside =>
    simp only [TypedExpr.receivers, List.mem_singleton] at asked
    subst asked
    refine ⟨Scope.isClass_of_innermost inside, ?_⟩
    cases borrowed
    · exact .inr ⟨rfl, inside⟩
    · exact .inl rfl
  | @member owner _ _ _ _ _ _ _ found plain own access =>
    cases isClass : (S.get owner).isClass with
    | false => simp [TypedExpr.receivers, Ref.receivers, isClass] at asked
    | true =>
      simp only [TypedExpr.receivers, Ref.receivers, isClass, List.mem_singleton] at asked
      subst asked
      refine ⟨isClass, ?_⟩
      cases borrowed
      · exact .inr ⟨rfl, own isClass⟩
      · exact .inl rfl
  | aliased _ _ ih =>
    obtain ⟨isClass, done | ⟨no, -⟩⟩ := ih true asked
    · exact ⟨isClass, .inl done⟩
    · cases no
  | nested _ ih | select _ _ _ _ _ ih | unary _ _ ih => exact ih borrowed asked
  | «show» _ _ ih =>
    simp only [TypedExpr.receivers, TypedExpr.receiversAll, Ref.receivers, List.nil_append,
      List.append_nil] at asked
    exact ih borrowed asked
  | call _ _ _ _ _ _ function args | new _ _ _ _ function args =>
    simp only [TypedExpr.receivers, List.mem_append, TypedExpr.mem_receiversAll] at asked
    obtain asked | ⟨arg, listed, asked⟩ := asked
    · exact function borrowed asked
    · exact args arg listed borrowed asked
  | convert _ _ _ _ _ _ function arg =>
    simp only [TypedExpr.receivers, TypedExpr.receiversAll, List.append_nil, List.mem_append] at asked
    exact asked.elim (function borrowed) (arg borrowed)
  | concat _ _ _ _ one two | compare _ _ _ _ _ one two | arithmetic _ _ _ _ _ one two =>
    simp only [TypedExpr.receivers, List.mem_append] at asked
    exact asked.elim (one borrowed) (two borrowed)
  | when _ _ _ test one =>
    simp only [TypedExpr.receivers, List.append_nil, List.mem_append] at asked
    exact asked.elim (test borrowed) (one borrowed)
  | cond _ _ _ _ _ test one two =>
    simp only [TypedExpr.receivers, List.mem_append] at asked
    exact asked.elim (·.elim (test borrowed) (one borrowed)) (two borrowed)
  | block _ _ parts =>
    obtain ⟨part, listed, asked⟩ := TypedStmt.mem_receiversAll.mp asked
    obtain ⟨own, place⟩ := TypedStmt.scope_of_part listed
    have known := parts part listed borrowed asked
    rw [place] at known
    exact known

theorem Scope.Inside.innermost {S : Symbols} {scope : Scope} {id : ContainerId}
    (inside : scope.Inside id)
    (innermost : scope.innermostClass? S = some cls) : (S.get id).isClass = true ∧ cls = id := by
  obtain ⟨frame, outer, rfl, own⟩ := inside.first
  simp only [Scope.innermostClass?, own] at innermost
  split at innermost
  · cases innermost
    exact ⟨‹_›, rfl⟩
  · cases innermost

/-- The code of a container has a scope, whose innermost container it is. -/
def TypedExpr.StandsIn (S : Symbols) (body : ContainerId × TypedExpr) : Prop :=
  ∃ scope, WellTyped S false scope body.2 ∧
    ∀ cls, scope.innermostClass? S = some cls → (S.get body.1).isClass = true ∧ cls = body.1

mutual

theorem TypedContainer.Fits.body : ∀ {container : TypedContainer}, container.Fits base S →
    ∀ {body : ContainerId × TypedExpr}, body ∈ container.bodies → TypedExpr.StandsIn S body
  | .mk _ _ _, fits, _, listed => TypedMember.FitsAll.body fits.2.2.2 listed

theorem TypedMember.Fits.body : ∀ {id : ContainerId} {member : TypedMember}, member.Fits base S id →
    ∀ {body : ContainerId × TypedExpr}, body ∈ member.bodies id → TypedExpr.StandsIn S body
  | _, .val _ _ _, fits, _, listed => by
    obtain rfl := List.mem_singleton.mp listed
    obtain ⟨-, -, -, -, -, scope, inside, typed⟩ := fits
    exact ⟨scope, typed, fun _ => inside.innermost⟩
  | _, .func _ _ _ _, fits, _, listed => by
    obtain rfl := List.mem_singleton.mp listed
    obtain ⟨-, -, -, -, scope, locals, inside, -, typed, -⟩ := fits
    exact ⟨_, typed, fun _ => inside.innermost⟩
  | _, .expr _ _, fits, _, listed => by
    obtain rfl := List.mem_singleton.mp listed
    obtain ⟨-, scope, inside, typed⟩ := fits
    exact ⟨scope, typed, fun _ => inside.innermost⟩
  | _, .container _, fits, _, listed => TypedContainer.Fits.body fits listed
  | _, .imports _, _, _, listed | _, .foreign _ _, _, _, listed => nomatch listed

theorem TypedMember.FitsAll.body : ∀ {id : ContainerId} {members : List TypedMember},
    TypedMember.FitsAll base S id members →
    ∀ {body : ContainerId × TypedExpr}, body ∈ TypedMember.bodiesAll id members →
      TypedExpr.StandsIn S body
  | _, [], _, _, listed => nomatch listed
  | _, _ :: _, fits, _, listed =>
    (List.mem_append.mp listed).elim (TypedMember.Fits.body fits.1) (TypedMember.FitsAll.body fits.2)

end

theorem TypedProgram.standsIn {program : TypedProgram} (fits : ∀ item ∈ program.items, item.Fits base S) :
    ∀ body ∈ program.bodies, TypedExpr.StandsIn S body := by
  intro body listed
  obtain ⟨item, present, inside⟩ := List.mem_flatMap.mp listed
  exact (fits item present).body inside

/-- What the code of a container asks for is a class, and without an import it is in place. -/
theorem TypedExpr.StandsIn.inPlace {body : ContainerId × TypedExpr} (stands : TypedExpr.StandsIn S body)
    (asked : receiver ∈ body.2.receivers false) :
    (S.get receiver.cls).isClass = true ∧ (receiver.borrowed = true ∨ receiver.InPlace S body.1) := by
  obtain ⟨scope, typed, own⟩ := stands
  obtain ⟨isClass, borrowed | ⟨-, innermost⟩⟩ := typed.borrowed_or_inside false receiver asked
  · exact ⟨isClass, .inl borrowed⟩
  · exact ⟨isClass, .inr (own _ innermost)⟩

/-- Nothing is asked for where there are no classes. -/
theorem TypedProgram.inPlace_of_modules {program : TypedProgram}
    (isModule : ∀ id, (S.get id).isClass = false) (fits : ∀ item ∈ program.items, item.Fits base S) :
    program.ReceiversInPlace S := by
  intro body listed receiver asked
  have isClass := ((TypedProgram.standsIn fits body listed).inPlace asked).1
  rw [isModule] at isClass
  cases isClass

end ScriptShell
