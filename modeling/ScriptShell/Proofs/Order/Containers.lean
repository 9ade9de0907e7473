import ScriptShell.Proofs.Order.Phases

/-! The members of containers, which the two checks come to in different orders. What the leading check did
for each import, each value and each body between its first and its last container is on record, wherever
in the order it stands; so the following check can be held against it member by member. -/
namespace ScriptShell

open Checking Typing

/-- The name of a member that has a body of its own. -/
def Member.bodyName? : Member → Option String
  | .val decl => some decl.name
  | .func decl => some decl.name
  | .foreign decl => some decl.name
  | _ => none

namespace Window

variable {σ α β : Type} {w : Window σ} {s t s' : Checking σ} {scope : Scope} {id : ContainerId}
  {members : List Member}

/-- The leading check took a step in the stretch. -/
def Took (w : Window σ) (x : Check σ α) : Prop :=
  ∃ u a v, u.Consistent w.env w.room ∧ w.first.Still u ∧ x u = .ok a v ∧ v.Leads w.last

/-- The leading check has come to all members of a container, from an import on. -/
structure Settles (w : Window σ) (scope : Scope) (id : ContainerId) (index : Nat) (members : List Member) :
    Prop where
  imports : ∀ i, index ≤ i → i < index + (memberImports members).length → ∀ own place,
    importAt? scope i = some (own, place) → w.Took (checkImport w.env own place)
  values : ∀ span value, .expr span value ∈ members →
    w.Took (checkValue w.env (visitMember w.env) scope value)
  bodies : ∀ member ∈ members, ∀ name, member.bodyName? = some name → w.last.Typed ⟨id, name⟩

theorem Settles.rest (settles : w.Settles scope id index (member :: members))
    (noImport : memberImports (member :: members) = memberImports members) :
    w.Settles scope id index members where
  imports i lower upper := settles.imports i lower (noImport ▸ upper)
  values span value listed := settles.values span value (List.mem_cons_of_mem _ listed)
  bodies member listed := settles.bodies member (List.mem_cons_of_mem _ listed)

theorem Settles.restImport (settles : w.Settles scope id index (.imports decl :: members)) :
    w.Settles scope id (index + 1) members where
  imports i lower upper := by
    refine settles.imports i (Nat.le_of_succ_le lower) ?_
    simp only [memberImports, List.filterMap_cons, List.length_cons] at upper ⊢
    omega
  values span value listed := settles.values span value (List.mem_cons_of_mem _ listed)
  bodies member listed := settles.bodies member (List.mem_cons_of_mem _ listed)

theorem Settles.cons (settles : w.Settles scope id index members)
    (noImport : memberImports (member :: members) = memberImports members)
    (value : ∀ span value, member = .expr span value → w.Took (checkValue w.env (visitMember w.env) scope value))
    (body : ∀ name, member.bodyName? = some name → w.last.Typed ⟨id, name⟩) :
    w.Settles scope id index (member :: members) where
  imports i lower upper := settles.imports i lower (noImport ▸ upper)
  values span own listed := by
    rcases List.mem_cons.mp listed with same | listed
    · exact value span own same.symm
    · exact settles.values span own listed
  bodies := List.forall_mem_cons.mpr ⟨body, settles.bodies⟩

theorem Settles.consImport (settles : w.Settles scope id (index + 1) members)
    (sought : importAt? scope index = some (own, place)) (took : w.Took (checkImport w.env own place)) :
    w.Settles scope id index (.imports decl :: members) where
  imports i lower upper mine there found := by
    by_cases same : i = index
    · subst same
      rw [sought, Option.some.injEq, Prod.mk.injEq] at found
      obtain ⟨rfl, rfl⟩ := found
      exact took
    · refine settles.imports i (Nat.lt_of_le_of_ne lower (Ne.symm same)) ?_ mine there found
      simp only [memberImports, List.filterMap_cons, List.length_cons] at upper ⊢
      omega
  values span value listed := settles.values span value (by simpa using listed)
  bodies := List.forall_mem_cons.mpr ⟨nofun, settles.bodies⟩

/-- The following check comes through, held against the whole stretch. -/
def Pursues (w : Window σ) (y : Check σ α) : Prop :=
  ∀ t, t.Consistent w.other w.room → w.Trails t →
    w.Lands (fun _ t' => t'.Consistent w.other w.room ∧ w.Trails t') (y t)

theorem Pursues.pure (a : α) : w.Pursues (Pure.pure a : Check σ α) :=
  fun _ ready trails => ⟨ready, trails⟩

theorem Pursues.bind {y : Check σ α} {f : α → Check σ β} (first : w.Pursues y)
    (second : ∀ a, w.Pursues (f a)) : w.Pursues (y >>= f) :=
  fun t ready trails => (first t ready trails).bind fun a v _ later => second a v later.1 later.2

/-- The typed form of a member is only read. -/
theorem typedMember_reads (key : MemberKey) (member : Member) (t : Checking σ) :
    ∃ typed, typedMember? key member t = .ok typed t := by
  have read : (get : Check σ _) t = .ok t t := rfl
  simp only [typedMember?, bind, EStateM.bind, read]
  cases member <;> rcases t.bodies.lookup key with _ | (_ | _ | _) <;> exact ⟨_, rfl⟩

/-- The import of a frame that comes after fewer than there are. -/
theorem importAt?_some {frame : Frame} (outer : Scope) (inside : index < frame.imports.length) :
    ∃ own place, importAt? (frame :: outer) index = some (own, place) := by
  unfold importAt?
  cases dropped : frame.imports.drop (frame.imports.length - (index + 1)) with
  | nil =>
    rw [List.drop_eq_nil_iff] at dropped
    omega
  | cons own earlier => exact ⟨own, { frame with imports := earlier } :: outer, by simp only [dropped]⟩

/-- The places of a container are laid out, and the leading check has come to their members. -/
def Covers (w : Window σ) (outer : Scope) (id : ContainerId) (container : Container) : Prop :=
  ∀ place n members, Within w.last.symbols.child outer id container place n members →
    place.Laid w.home ∧ w.Settles place n 0 members

theorem typedMember_ok {s' : Checking σ}
    (run : (typedMember? key member : Check σ _) s = .ok typed s') : s' = s := by
  have kept : ∃ found, typedMember? key member s = .ok found s := typedMember_reads key member s
  obtain ⟨found, ran⟩ := kept
  rw [ran] at run
  cases run
  rfl

/-- The leading check comes to the member of a key. -/
theorem checkOwn_moves {s' : Checking σ} (twins : w.Twins) (ready : s.Consistent w.env w.room) (idle : s.Idle)
    (run : checkOwn w.env key member s = .ok typed s') : w.Moves w.room s s' ∧ s'.Typed key := by
  have moving : w.Moving w.room := moving twins.owned twins.laid w.room
  simp only [checkOwn, Check.bind_ok, Check.pure_ok] at run
  obtain ⟨_, t, visited, found, _, taken, -, rfl⟩ := run
  obtain rfl := typedMember_ok taken
  rw [twins.visits] at visited
  have moves := moving.moves key s _ ready visited
  refine ⟨moves, ?_⟩
  cases listed : s.progress.lookup key with
  | none =>
    intro own present
    rw [(listed_iff moves.leads.still.keys key).mpr listed] at present
    cases present
  | some own =>
    have present : s.progress.lookup key ≠ none := by simp [listed]
    rcases idle_cases idle present with ⟨waiting, -⟩ | ⟨-, known⟩
    · exact moving.keeps.typed key s _ ready visited waiting
    · exact moves.leads.typed key known

/-- An import has come to its place among those of its frame. -/
def Fits (scope : Scope) (index : Nat) (members : List Member) : Prop :=
  ∃ frame outer, scope = frame :: outer ∧ index + (memberImports members).length ≤ frame.imports.length

theorem Fits.restImport (fits : Fits scope index (.imports decl :: members)) :
    Fits scope (index + 1) members := by
  obtain ⟨frame, outer, rfl, room⟩ := fits
  refine ⟨frame, outer, rfl, ?_⟩
  simp only [memberImports, List.filterMap_cons, List.length_cons] at room ⊢
  omega

theorem Fits.rest (fits : Fits scope index (member :: members))
    (noImport : memberImports (member :: members) = memberImports members) :
    Fits scope index members := by
  unfold Fits at fits ⊢
  rwa [noImport] at fits

theorem nestedId_child {s' : Checking σ} (shape : s.symbols.shape = w.last.symbols.shape)
    (run : (nestedId id name : Check σ _) s = .ok number s') :
    number = w.last.symbols.child id name ∧ s' = s := by
  simp only [nestedId, Check.bind_ok, Check.symbols_ok, Check.pure_ok] at run
  obtain ⟨_, _, ⟨rfl, rfl⟩, rfl, rfl⟩ := run
  exact ⟨Symbols.child_congr (Symbols.member?_eq_of_shape shape _), rfl⟩

/-- The leading check comes to all members of its containers, in the order they are written. -/
theorem checkContainer_settles (twins : w.Twins) :
    (∀ outer id container (s s' : Checking σ) typed, s.Consistent w.env w.room → s.Idle →
      s.symbols.shape = w.last.symbols.shape →
      (∀ place n members, Within w.last.symbols.child outer id container place n members →
        place.Laid w.home) →
      checkContainer w.env outer id container s = .ok typed s' →
      w.Moves w.room s s' ∧ (w.first.Still s → s'.Leads w.last → w.Covers outer id container)) ∧
    ∀ scope id index members (s s' : Checking σ) typed, s.Consistent w.env w.room → s.Idle →
      s.symbols.shape = w.last.symbols.shape → scope.Laid w.home → Fits scope index members →
      (∀ inner, .container inner ∈ members → ∀ place n own,
        Within w.last.symbols.child scope (w.last.symbols.child id inner.name) inner place n own →
          place.Laid w.home) →
      checkMembers w.env scope id index members s = .ok typed s' →
      w.Moves w.room s s' ∧ (w.first.Still s → s'.Leads w.last → w.Settles scope id index members ∧
        ∀ inner, .container inner ∈ members → w.Covers scope (w.last.symbols.child id inner.name) inner) := by
  have moving : w.Moving w.room := moving twins.owned twins.laid w.room
  apply checkContainer.mutual_induct
  case case1 =>
    intro outer id span kind name exported params members all s s' typed ready idle shape laid run
    simp only [checkContainer, Check.bind_ok, Check.pure_ok] at run
    obtain ⟨_, t, checked, -, rfl⟩ := run
    have own := laid _ _ _ .own
    obtain ⟨moves, settles⟩ := all s t _ ready idle shape own
      ⟨_, _, rfl, by simp [containerFrame, importFrame, length_scopedImports]⟩
      (fun inner listed place n held within => laid place n held (.nested listed within)) checked
    refine ⟨moves, fun still leads place n held within => ?_⟩
    obtain ⟨here, deeper⟩ := settles still leads
    cases within with
    | own => exact ⟨own, here⟩
    | nested listed within => exact deeper _ listed place n held within
  case case2 =>
    intro scope id index s s' typed ready _ _ _ _ _ run
    rw [checkMembers] at run
    obtain ⟨rfl, rfl⟩ := Check.pure_ok.mp run
    refine ⟨.refl ready, fun _ _ => ⟨⟨?_, by simp, by simp⟩, by simp⟩⟩
    intro i lower upper
    exact absurd lower (Nat.not_le_of_lt (by simpa [memberImports] using upper))
  case case3 =>
    intro scope id index decl rest own place sought others s s' typed ready idle shape laid fits inner run
    rw [checkMembers] at run
    simp only [sought, Check.bind_ok, Check.pure_ok] at run
    obtain ⟨first, t, one, _, _, more, -, rfl⟩ := run
    obtain ⟨stands, front⟩ := importAt?_stands laid sought
    obtain ⟨moves, -⟩ := checkImport_follows twins moving stands front ready one
    obtain ⟨further, settles⟩ := others t _ _ moves.consistent (moves.idle idle)
      (moves.leads.shape.trans shape) laid fits.restImport
      (fun deeper listed => inner deeper (List.mem_cons_of_mem _ listed)) more
    refine ⟨moves.trans further, fun still leads => ?_⟩
    obtain ⟨here, deeper⟩ := settles (still.trans moves.leads.still) leads
    have took : w.Took (checkImport w.env own place) :=
      ⟨s, first, t, ready, still, one, further.leads.trans leads⟩
    exact ⟨here.consImport sought took, fun inner listed => deeper inner (by simpa using listed)⟩
  case case4 =>
    intro scope id index decl rest sought s s' typed ready idle shape laid fits inner run
    obtain ⟨frame, outer, rfl, room⟩ := fits
    obtain ⟨own, place, found⟩ := importAt?_some outer
      (show index < frame.imports.length by
        simp only [memberImports, List.filterMap_cons, List.length_cons] at room
        omega)
    rw [sought] at found
    cases found
  case case5 | case6 | case7 =>
    intro scope id index decl rest others s s' typed ready idle shape laid fits inner run
    rw [checkMembers] at run
    simp only [Check.bind_ok, Check.pure_ok] at run
    obtain ⟨first, t, one, _, _, more, -, rfl⟩ := run
    obtain ⟨moves, known⟩ := checkOwn_moves twins ready idle one
    obtain ⟨further, settles⟩ := others t _ _ moves.consistent (moves.idle idle)
      (moves.leads.shape.trans shape) laid (fits.rest rfl)
      (fun deeper listed => inner deeper (List.mem_cons_of_mem _ listed)) more
    refine ⟨moves.trans further, fun still leads => ?_⟩
    obtain ⟨here, deeper⟩ := settles (still.trans moves.leads.still) leads
    refine ⟨here.cons rfl (by simp) ?_, fun inner listed => deeper inner (by simpa using listed)⟩
    rintro _ ⟨⟩
    exact leads.typed _ (further.leads.typed _ known)
  case case8 =>
    intro scope id index decl rest container others s s' typed ready idle shape laid fits inner run
    rw [checkMembers] at run
    simp only [Check.bind_ok, Check.pure_ok] at run
    obtain ⟨_, _, number, first, t, one, _, _, more, -, rfl⟩ := run
    obtain ⟨rfl, rfl⟩ := nestedId_child shape number
    obtain ⟨moves, covers⟩ := container _ _ t first ready idle shape (inner decl List.mem_cons_self) one
    obtain ⟨further, settles⟩ := others t _ _ moves.consistent (moves.idle idle)
      (moves.leads.shape.trans shape) laid (fits.rest rfl)
      (fun deeper listed => inner deeper (List.mem_cons_of_mem _ listed)) more
    refine ⟨moves.trans further, fun still leads => ?_⟩
    obtain ⟨here, deeper⟩ := settles (still.trans moves.leads.still) leads
    refine ⟨here.cons rfl (by simp) (by simp [Member.bodyName?]), fun own listed => ?_⟩
    rcases List.mem_cons.mp listed with same | listed
    · cases same
      exact covers still (further.leads.trans leads)
    · exact deeper own listed
  case case9 =>
    intro scope id index span value rest others s s' typed ready idle shape laid fits inner run
    rw [checkMembers] at run
    simp only [Check.bind_ok, Check.pure_ok] at run
    obtain ⟨first, t, one, _, _, more, -, rfl⟩ := run
    have taken := one
    rw [twins.visits] at one
    obtain ⟨moves, -⟩ := checkValue_follows moving laid ready one
    obtain ⟨further, settles⟩ := others t _ _ moves.consistent (moves.idle idle)
      (moves.leads.shape.trans shape) laid (fits.rest rfl)
      (fun deeper listed => inner deeper (List.mem_cons_of_mem _ listed)) more
    refine ⟨moves.trans further, fun still leads => ?_⟩
    obtain ⟨here, deeper⟩ := settles (still.trans moves.leads.still) leads
    refine ⟨here.cons rfl ?_ (by simp [Member.bodyName?]), fun inner listed => deeper inner (by simpa using listed)⟩
    rintro _ _ ⟨⟩
    exact ⟨s, first, t, ready, still, taken, further.leads.trans leads⟩

end Window

end ScriptShell
