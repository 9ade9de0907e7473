import ScriptShell.Proofs.Order.Reordering
import ScriptShell.Proofs.Order.Traces
import ScriptShell.Proofs.Typing.Tables

/-! The places of a unit: its containers, each with its number and the scope of its members. The numbers are
given in the order the containers are written, one that is nested behind the one it is nested in; they tell
the containers apart, so an import is known by the number of its container and its own. -/
namespace ScriptShell

mutual

/-- The scopes of the members of a container and of those nested in it, by the numbers of the containers. -/
def Container.scopes (outer : Scope) (id : ContainerId) : Container → List (ContainerId × Scope)
  | .mk _ _ _ _ _ members =>
    (id, Typing.containerFrame id members :: outer) ::
      Member.scopesAll (Typing.containerFrame id members :: outer) (id + 1) members

/-- The scopes of the containers among members, the first one of which has the number `next`. -/
def Member.scopesAll (scope : Scope) (next : ContainerId) : List Member → List (ContainerId × Scope)
  | [] => []
  | .container decl :: rest => decl.scopes scope next ++ Member.scopesAll scope (next + decl.count) rest
  | _ :: rest => Member.scopesAll scope next rest

end

namespace Symbols

variable {S T : Symbols} {own : Option ContainerId} {id next : ContainerId}

/-- The number of a container nested in another one. -/
def child (S : Symbols) (id : ContainerId) (name : String) : ContainerId :=
  ((S.member? ⟨id, name⟩).bind (·.nested)).getD id

theorem child_congr {name : String}
    (same : (T.member? ⟨id, name⟩).map (·.shape) = (S.member? ⟨id, name⟩).map (·.shape)) :
    T.child id name = S.child id name := by
  have nested : ∀ U : Symbols, (U.member? ⟨id, name⟩).bind (·.nested) =
      ((U.member? ⟨id, name⟩).map (·.shape)).bind (·.nested) := by
    intro U
    cases U.member? ⟨id, name⟩ <;> rfl
  unfold child
  rw [nested, nested S, same]

mutual

/-- The containers nested in one are found under the numbers they were given. -/
def Numbers (S : Symbols) (id : ContainerId) : Container → Prop
  | .mk _ _ _ _ _ members => S.NumbersAll id (id + 1) members

/-- The containers among members are found under the numbers from `next` on. -/
def NumbersAll (S : Symbols) (id next : ContainerId) : List Member → Prop
  | [] => True
  | .container decl :: rest =>
    (∃ member, S.member? ⟨id, decl.name⟩ = some member ∧ member.nested = some next ∧ S.Numbers next decl) ∧
      S.NumbersAll id (next + decl.count) rest
  | _ :: rest => S.NumbersAll id next rest

end

mutual

/-- Numbers depend on what is nested where, and on nothing else. -/
theorem Numbers.keep (keeps : ∀ key member, S.member? key = some member →
      ∃ later, T.member? key = some later ∧ later.nested = member.nested) :
    ∀ {id : ContainerId} {container : Container}, S.Numbers id container → T.Numbers id container
  | _, .mk _ _ _ _ _ _, numbers => by
    simp only [Numbers] at numbers ⊢
    exact numbers.keep keeps

theorem NumbersAll.keep (keeps : ∀ key member, S.member? key = some member →
      ∃ later, T.member? key = some later ∧ later.nested = member.nested) :
    ∀ {id next : ContainerId} {members : List Member}, S.NumbersAll id next members →
      T.NumbersAll id next members
  | _, _, [], _ => trivial
  | _, _, .container _ :: _, numbers => by
    simp only [NumbersAll] at numbers ⊢
    obtain ⟨⟨member, found, nested, inner⟩, rest⟩ := numbers
    obtain ⟨later, present, same⟩ := keeps _ member found
    exact ⟨⟨later, present, same.trans nested, inner.keep keeps⟩, rest.keep keeps⟩
  | _, _, .imports _ :: _, numbers | _, _, .val _ :: _, numbers | _, _, .func _ :: _, numbers
  | _, _, .foreign _ :: _, numbers | _, _, .expr _ _ :: _, numbers => by
    simp only [NumbersAll] at numbers ⊢
    exact numbers.keep keeps

end

theorem Numbers.adds {container : Container} (numbers : S.Numbers id container) (adds : S.Adds own T) :
    T.Numbers id container :=
  numbers.keep fun _ member found => ⟨member, adds.member? found, rfl⟩

theorem NumbersAll.adds {members : List Member} (numbers : S.NumbersAll id next members)
    (adds : S.Adds own T) : T.NumbersAll id next members :=
  numbers.keep fun _ member found => ⟨member, adds.member? found, rfl⟩

theorem Numbers.of_shape {container : Container} (numbers : S.Numbers id container)
    (same : T.shape = S.shape) : T.Numbers id container := by
  refine numbers.keep fun key member found => ?_
  obtain ⟨later, present, shaped⟩ := member?_of_shape same found
  exact ⟨later, present, MemberSymbol.nested_eq_of_shape shaped⟩

/-- A container among members has its number, and its scopes are among those of the members. -/
theorem NumbersAll.nested {members : List Member} {inner : Container} (numbers : S.NumbersAll id next members)
    (listed : .container inner ∈ members) : S.Numbers (S.child id inner.name) inner ∧
      ∀ scope, inner.scopes scope (S.child id inner.name) ⊆ Member.scopesAll scope next members := by
  induction members generalizing next with
  | nil => cases listed
  | cons head rest ih =>
    cases head with
    | container decl =>
      simp only [NumbersAll] at numbers
      obtain ⟨⟨member, found, nested, own⟩, others⟩ := numbers
      rcases List.mem_cons.mp listed with same | listed
      · cases same
        have number : S.child id inner.name = next := by simp [child, found, nested]
        rw [number]
        exact ⟨own, fun scope => List.subset_append_left _ _⟩
      · obtain ⟨there, among⟩ := ih others listed
        exact ⟨there, fun scope => List.subset_append_of_subset_right _ (among scope)⟩
    | imports | val | func | foreign | expr =>
      simp only [NumbersAll] at numbers
      simpa only [Member.scopesAll] using ih numbers (by simpa using listed)

end Symbols

namespace Typing

variable {σ : Type}

/-- A container and those nested in it, with their scopes and numbers. -/
inductive Within (child : ContainerId → String → ContainerId) :
    Scope → ContainerId → Container → Scope → ContainerId → List Member → Prop where
  | own {id : ContainerId} : Within child outer id (.mk span kind name exported params members)
      (containerFrame id members :: outer) id members
  | nested {id n : ContainerId} {inner : Container} (listed : .container inner ∈ members)
      (deeper : Within child (containerFrame id members :: outer) (child id inner.name) inner scope n others) :
    Within child outer id (.mk span kind name exported params members) scope n others

/-- The scopes of nested containers are among those that the numbers tell apart. -/
theorem Within.listed {S : Symbols} {id n : ContainerId} (numbers : S.Numbers id container)
    (within : Within S.child outer id container place n members) : (n, place) ∈ container.scopes outer id := by
  induction within with
  | own =>
    rw [Container.scopes]
    exact List.mem_cons_self
  | nested listed _ ih =>
    simp only [Symbols.Numbers] at numbers
    obtain ⟨own, among⟩ := numbers.nested listed
    rw [Container.scopes]
    exact List.mem_cons_of_mem _ (among _ (ih own))

mutual

theorem scopes_numbers (outer : Scope) (id : ContainerId) :
    ∀ container : Container, (container.scopes outer id).map (·.1) = List.range' id container.count
  | .mk _ _ _ _ _ members => by
    rw [Container.scopes, Container.count, List.map_cons, scopesAll_numbers, Nat.add_comm 1,
      List.range'_succ]

theorem scopesAll_numbers (scope : Scope) (next : ContainerId) : ∀ members : List Member,
    (Member.scopesAll scope next members).map (·.1) = List.range' next (Member.countAll members)
  | [] => rfl
  | .container decl :: rest => by
    rw [Member.scopesAll, Member.countAll, List.map_append, scopes_numbers, scopesAll_numbers,
      List.range'_append_1]
  | .imports _ :: rest | .val _ :: rest | .func _ :: rest | .foreign _ :: rest | .expr _ _ :: rest => by
    simp only [Member.scopesAll, Member.countAll]
    exact scopesAll_numbers scope next rest

end

/-- Containers are numbered as they are declared. -/
theorem declares_numbers (artifact : String) :
    (∀ owner outer container (s s' : Checking σ) id declared, Scope.ids outer = [] →
      declareContainer owner outer artifact container s = .ok (id, declared) s' →
      id = s.symbols.containers.size ∧
        s'.symbols.containers.size = s.symbols.containers.size + container.count ∧
        s'.symbols.Numbers id container) ∧
    ∀ id scope members (s s' : Checking σ) declared, Scope.Inside id scope →
      id < s.symbols.containers.size → declareMembers id scope artifact members s = .ok declared s' →
      s'.symbols.containers.size = s.symbols.containers.size + Member.countAll members ∧
        s'.symbols.NumbersAll id s.symbols.containers.size members := by
  apply declareContainer.mutual_induct
  case case1 =>
    intro owner outer span kind name exported params own members s s' id declared plain run
    simp only [declareContainer, Check.bind_ok, Check.symbols_ok, Check.modify_ok, Check.pure_ok,
      Prod.mk.injEq] at run
    obtain ⟨_, _, ⟨rfl, rfl⟩, _, _, rfl, _, _, first, others, _, second, ⟨rfl, rfl⟩, rfl⟩ := run
    obtain ⟨_, rfl, one⟩ := declareParams_ok (by simp [Symbols.push]) first
    have size := one.size.trans (Symbols.size_push s.symbols _)
    obtain ⟨count, numbers⟩ := members _ _ _ _ (inside_containerFrame plain)
      (Nat.lt_of_lt_of_eq (Nat.lt_succ_self _) size.symm) second
    refine ⟨rfl, ?_, ?_⟩
    · rw [count, size, Container.count, Nat.add_assoc]
    · rw [Symbols.Numbers]
      rw [size] at numbers
      exact numbers
  case case2 =>
    intro id scope s s' declared _ _ run
    rw [declareMembers] at run
    obtain ⟨-, rfl⟩ := Check.pure_ok.mp run
    exact ⟨rfl, trivial⟩
  case case3 =>
    intro id scope decl rest ih s s' declared spot inside run
    rw [declareMembers] at run
    simp only [Check.bind_ok, Check.pure_ok] at run
    obtain ⟨member, _, symbol, _, _, added, others, _, more, -, rfl⟩ := run
    obtain ⟨V, rfl, slotted, -⟩ := valSymbol_ok symbol
    obtain ⟨T, rfl, one⟩ := addMember_ok (by rw [slotted.size]; exact inside) added
    have size := one.size.trans slotted.size
    rw [← size] at inside ⊢
    exact ih _ _ _ spot inside more
  case case4 =>
    intro id scope decl rest ih s s' declared spot inside run
    rw [declareMembers] at run
    simp only [Check.bind_ok, Check.pure_ok] at run
    obtain ⟨symbol, _, named, _, _, added, others, _, more, -, rfl⟩ := run
    obtain ⟨rfl, rfl⟩ := memberSymbol_ok named
    obtain ⟨T, rfl, one⟩ := addMember_ok inside added
    rw [← one.size] at inside ⊢
    exact ih _ _ _ spot inside more
  case case5 =>
    intro id scope decl rest ih s s' declared spot inside run
    rw [declareMembers] at run
    simp only [Check.bind_ok, Check.pure_ok] at run
    obtain ⟨_, _, added, others, _, more, -, rfl⟩ := run
    obtain ⟨T, rfl, one⟩ := addMember_ok inside added
    rw [← one.size] at inside ⊢
    exact ih _ _ _ spot inside more
  case case6 =>
    intro id scope decl rest container ih s s' declared spot inside run
    rw [declareMembers] at run
    simp only [Check.bind_ok, Check.pure_ok] at run
    obtain ⟨⟨nested, own⟩, _, inner, _, _, added, others, _, more, -, rfl⟩ := run
    obtain ⟨rfl, count, numbers⟩ := container s _ nested own spot.plain inner
    obtain ⟨V, rfl, first⟩ := (declares 0 artifact).1 _ _ _ spot.plain (Nat.zero_le _) inner
    have room := Nat.lt_of_lt_of_le inside first.adds.size
    obtain ⟨T, rfl, one⟩ := addMember_ok room added
    have there : id < T.containers.size := by rw [one.size]; exact room
    obtain ⟨all, rest⟩ := ih _ _ _ spot there more
    obtain ⟨U, rfl, two⟩ := (declares 0 artifact).2 _ _ _ spot (Nat.zero_le _) there more
    refine ⟨?_, ?_⟩
    · rw [all, one.size, count, Member.countAll, Nat.add_assoc]
    · rw [Symbols.NumbersAll]
      rw [one.size, count] at rest
      exact ⟨⟨_, two.adds.member? one.found, rfl, (numbers.adds one.adds).adds two.adds⟩, rest⟩
  case case7 | case8 =>
    intros
    rename_i ih s s' declared spot inside run
    rw [declareMembers] at run
    exact ih _ _ _ spot inside run

/-- The items of a unit are numbered as they are declared. -/
theorem declareItems_numbers {s s' : Checking σ} (plain : Scope.ids unit = [])
    (run : (declareItems unit before items : Check σ _) s = .ok (named, declared) s') :
    ∃ ids, named = before ++ (items.map (·.name)).zip ids ∧ ids.length = items.length ∧
      ∀ item ∈ items.zip ids, s'.symbols.Numbers item.2 item.1 ∧ item.1.scopes unit item.2 ⊆
        Member.scopesAll unit s.symbols.containers.size (items.map .container) := by
  induction items generalizing s before named declared with
  | nil =>
    simp only [declareItems, Check.pure_ok, Prod.mk.injEq] at run
    obtain ⟨⟨rfl, rfl⟩, rfl⟩ := run
    exact ⟨[], by simp⟩
  | cons item rest ih =>
    simp only [declareItems, Check.guard_ok, Check.bind_ok, Check.pure_ok, Prod.mk.injEq] at run
    obtain ⟨-, ⟨id, own⟩, _, first, ⟨_, others⟩, _, more, ⟨rfl, rfl⟩, rfl⟩ := run
    obtain ⟨rfl, count, numbers⟩ := (declares_numbers item.name).1 _ _ _ _ _ _ _ plain first
    obtain ⟨ids, rfl, length, all⟩ := ih more
    obtain ⟨U, rfl, two⟩ := declareItems_ok plain (Nat.zero_le _) more
    refine ⟨s.symbols.containers.size :: ids, by simp, by simp [length], fun entry listed => ?_⟩
    rw [List.map_cons, Member.scopesAll, ← count]
    rcases List.mem_cons.mp listed with rfl | listed
    · exact ⟨numbers.adds two.adds, List.subset_append_left _ _⟩
    · exact ⟨(all entry listed).1, List.subset_append_of_subset_right _ (all entry listed).2⟩

section Home

variable {base : Nat} {imports : List Import} {items : List Container}

/-- The scopes of all members of a unit. -/
def unitScopes (base : Nat) (imports : List Import) (items : List Container) : List (ContainerId × Scope) :=
  Member.scopesAll [importFrame none imports] base (items.map .container)

/-- The place of every import of a unit: the import, and the scope it is resolved in. -/
def unitHome (base : Nat) (imports : List Import) (items : List Container) (key : ImportKey) :
    Option (ScopedImport × Scope) :=
  match key.owner with
  | none => importAt? [importFrame none imports] key.index
  | some id => ((unitScopes base imports items).lookup id).bind (importAt? · key.index)

theorem length_scopedImports (owner : Option ContainerId) (index : Nat) (imports : List Import) :
    (scopedImports owner index imports).length = imports.length := by
  induction imports generalizing index with
  | nil => rfl
  | cons decl rest ih => rw [scopedImports, List.length_cons, List.length_cons, ih]

theorem key_scopedImports {owner : Option ContainerId} {index i : Nat}
    (found : (scopedImports owner index imports)[i]? = some own) : own.key = ⟨owner, index + i⟩ := by
  induction imports generalizing index i with
  | nil => cases found
  | cons decl rest ih =>
    rw [scopedImports] at found
    cases i with
    | zero =>
      cases found
      rfl
    | succ i =>
      rw [ih found]
      congr 1
      omega

/-- An import of a frame is found by its number. -/
theorem importAt?_importFrame {owner : Option ContainerId} (outer : Scope)
    (suffix : own :: earlier <:+ (importFrame owner imports).imports) : own.key.owner = owner ∧
      importAt? (importFrame owner imports :: outer) own.key.index =
        some (own, { importFrame owner imports with imports := earlier } :: outer) := by
  have size := length_scopedImports owner 0 imports
  have dropped := List.suffix_iff_eq_drop.mp suffix
  have short := suffix.length_le
  simp only [importFrame, List.length_reverse, List.length_cons] at dropped short
  have place : (scopedImports owner 0 imports)[earlier.length]? = some own := by
    have first := congrArg (·[0]?) dropped
    simp only [List.getElem?_cons_zero, List.getElem?_drop, Nat.add_zero] at first
    rw [List.getElem?_reverse (by omega)] at first
    rw [first]
    congr 1
    omega
  have key := key_scopedImports place
  rw [key, Nat.zero_add]
  refine ⟨rfl, ?_⟩
  unfold importAt?
  simp only [importFrame, List.length_reverse]
  rw [← dropped]

end Home

end Typing

end ScriptShell
