import Mathlib.Data.List.Forall2
import Mathlib.Data.List.Perm.Basic
import ScriptShell.Typing.Declare

/-! Units whose functions are written in another order. Imports, values, nested containers and expressions
stay in the order they are written, and so do implicit functions, which are tried as conversions one after
the other. -/
namespace ScriptShell

/-- Functions of the program or from outside. -/
def Member.isDef : Member → Bool
  | .func _ | .foreign _ => true
  | _ => false

/-- Implicit functions, which convert operands. -/
def Member.converts : Member → Bool
  | .func decl => decl.implicit
  | _ => false

/-- Members whose functions are written in another order. -/
structure Member.Shuffles (members others : List Member) : Prop where
  perm : others.Perm members
  rest : others.filter (!·.isDef) = members.filter (!·.isDef)
  conversions : others.filter (·.converts) = members.filter (·.converts)

mutual

/-- The functions of a container, or of one nested in it, are written in another order. -/
inductive Container.Reorders : Container → Container → Prop where
  | mk (inner : Member.Reorders members between) (order : Member.Shuffles between others) :
    Container.Reorders (.mk span kind name exported params members)
      (.mk span kind name exported params others)

/-- The functions of nested containers are written in another order. -/
inductive Member.Reorders : List Member → List Member → Prop where
  | nil : Member.Reorders [] []
  | keep (rest : Member.Reorders members others) : Member.Reorders (member :: members) (member :: others)
  | container (own : Container.Reorders container other) (rest : Member.Reorders members others) :
    Member.Reorders (.container container :: members) (.container other :: others)

end

/-- The functions of a unit are written in another order. -/
structure Program.Reorders (program other : Program) : Prop where
  imports : other.imports = program.imports
  items : List.Forall₂ Container.Reorders program.items other.items

namespace Member

variable {members between others : List Member}

/-- The containers among members. -/
def containers (members : List Member) : List Container :=
  members.filterMap fun
    | .container decl => some decl
    | _ => none

theorem Shuffles.refl (members : List Member) : Shuffles members members :=
  ⟨.refl _, rfl, rfl⟩

theorem Reorders.refl (members : List Member) : Reorders members members := by
  induction members with
  | nil => exact .nil
  | cons member members ih => exact .keep ih

end Member

theorem Container.Reorders.refl : ∀ container : Container, container.Reorders container
  | .mk _ _ _ _ _ _ => .mk (.refl _) (.refl _)

namespace Member

variable {members between others : List Member}

/-- What is read off the other members does not change. -/
theorem Shuffles.filterMap (shuffles : Shuffles members others) {f : Member → Option α}
    (skips : ∀ member, member.isDef = true → f member = none) : others.filterMap f = members.filterMap f := by
  have only : ∀ list : List Member, list.filterMap f = (list.filter (!·.isDef)).filterMap f := by
    intro list
    rw [List.filterMap_filter]
    apply List.filterMap_congr
    intro member _
    cases isDef : member.isDef with
    | true => simpa using skips member isDef
    | false => simp
  rw [only, only members, shuffles.rest]

theorem Shuffles.imports (shuffles : Shuffles members others) :
    Typing.memberImports others = Typing.memberImports members :=
  shuffles.filterMap fun member isDef => by cases member <;> first | rfl | cases isDef

theorem Shuffles.containers (shuffles : Shuffles members others) :
    Member.containers others = Member.containers members :=
  shuffles.filterMap fun member isDef => by cases member <;> first | rfl | cases isDef

theorem Reorders.imports (reorders : Reorders members others) :
    Typing.memberImports others = Typing.memberImports members := by
  induction members generalizing others with
  | nil =>
    cases reorders
    rfl
  | cons member members ih =>
    cases reorders with
    | keep rest =>
      have same := ih rest
      simp only [Typing.memberImports, List.filterMap_cons] at same ⊢
      rw [same]
    | container own rest =>
      have same := ih rest
      simpa only [Typing.memberImports, List.filterMap_cons] using same

theorem Reorders.containers (reorders : Reorders members others) :
    List.Forall₂ Container.Reorders (Member.containers members) (Member.containers others) := by
  induction members generalizing others with
  | nil =>
    cases reorders
    exact .nil
  | cons member members ih =>
    cases reorders with
    | keep rest =>
      cases member with
      | container own => exact .cons (.refl own) (ih rest)
      | imports | val | func | foreign | expr =>
        have related := ih rest
        simpa only [Member.containers, List.filterMap_cons] using related
    | container own rest => exact .cons own (ih rest)

/-- Members other than containers are the same. -/
theorem Reorders.mem (reorders : Reorders members others) (listed : member ∈ others) :
    member ∈ members ∨ ∃ own other, member = .container other ∧ .container own ∈ members ∧
      own.Reorders other := by
  induction members generalizing others with
  | nil =>
    cases reorders
    cases listed
  | cons first members ih =>
    cases reorders with
    | keep rest =>
      rcases List.mem_cons.mp listed with rfl | listed
      · exact .inl List.mem_cons_self
      · refine (ih rest listed).imp (List.mem_cons_of_mem _) ?_
        rintro ⟨own, other, same, there, related⟩
        exact ⟨own, other, same, List.mem_cons_of_mem _ there, related⟩
    | @container mine other _ _ own rest =>
      rcases List.mem_cons.mp listed with rfl | listed
      · exact .inr ⟨mine, other, rfl, List.mem_cons_self, own⟩
      · refine (ih rest listed).imp (List.mem_cons_of_mem _) ?_
        rintro ⟨own, other, same, there, related⟩
        exact ⟨own, other, same, List.mem_cons_of_mem _ there, related⟩

end Member

/-- What a container and its reordering have in common. -/
structure Container.Matches (container other : Container) : Prop where
  name : other.name = container.name
  kind : other.kind = container.kind
  params : other.params = container.params
  imports : Typing.memberImports other.members = Typing.memberImports container.members
  containers : List.Forall₂ Container.Reorders (Member.containers container.members)
    (Member.containers other.members)
  /-- Members other than containers are the same. -/
  mem : ∀ member ∈ other.members, member ∈ container.members ∨ ∃ own inner, member = .container inner ∧
    .container own ∈ container.members ∧ own.Reorders inner

theorem Container.Reorders.matches {container other : Container} (reorders : container.Reorders other) :
    container.Matches other := by
  cases reorders with
  | mk inner order =>
    refine ⟨rfl, rfl, rfl, order.imports.trans inner.imports, ?_, fun member listed => ?_⟩
    · simp only [members, order.containers]
      exact inner.containers
    · exact inner.mem (order.perm.mem_iff.mp listed)

end ScriptShell
