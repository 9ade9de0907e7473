import ScriptShell.Proofs.Order.Members

/-! Visits of members are followed. A member that the following check comes to was begun by the leading
check as well, since that one knows its type in the end; so the run of its body is on record. The
induction is on the room of the following check, which every visit makes smaller. -/
namespace ScriptShell

open Checking Typing

namespace Typing

variable {σ : Type} {env : CheckEnv σ} {n : Nat} {s t s' : Checking σ} {key : MemberKey}

/-- A visit finds the member begun, or it checks the body and marks the member. -/
theorem checkMember_ok (ready : s.Consistent env (n + 1))
    (run : checkMember env (n + 1) key s = .ok () s') :
    s' = s ∧ s.progress.lookup key ≠ some ⟨.pending, false⟩ ∨
    ∃ decl t, env.decls.lookup key = some decl ∧ s.progress.lookup key = some ⟨.pending, false⟩ ∧
      checkPending env (checkMember env n) key decl (s.mark key ⟨.checking, false⟩) = .ok () t ∧
      s' = t.mark key ⟨.done, true⟩ := by
  simp only [checkMember, Check.bind_ok, Check.progress?_ok] at run
  obtain ⟨_, _, ⟨rfl, rfl⟩, run⟩ := run
  have present := lookup_isSome_iff_of_keys ready.keys key
  cases listed : env.decls.lookup key with
  | none =>
    simp only [listed, Check.pure_ok, true_and] at run
    refine .inl ⟨run.symm, fun waiting => ?_⟩
    rw [waiting, listed] at present
    cases present
  | some decl =>
    cases waiting : s.progress.lookup key with
    | none =>
      simp only [listed, waiting, Check.pure_ok, true_and] at run
      exact .inl ⟨run.symm, by simp⟩
    | some own =>
      simp only [listed, waiting] at run
      split at run
      next pending =>
        have untyped : own = ⟨.pending, false⟩ := by
          obtain ⟨state, typed⟩ := own
          obtain rfl : state = .pending := pending
          cases typed with
          | false => rfl
          | true => exact absurd rfl ((ready.flags _ (mem_of_lookup waiting)).2 rfl)
        subst untyped
        simp only [Check.bind_ok, Check.setProgress_ok] at run
        obtain ⟨_, _, rfl, _, t, body, rfl⟩ := run
        exact .inr ⟨decl, t, rfl, rfl, body, rfl⟩
      next begun =>
        refine .inl ⟨(Check.pure_ok.mp run).2.symm, ?_⟩
        rintro ⟨⟩
        exact begun rfl

/-- A member that waits is begun. -/
theorem checkMember_waiting (listed : env.decls.lookup key = some decl)
    (waiting : t.progress.lookup key = some ⟨.pending, false⟩) :
    checkMember env (n + 1) key t = (do
      checkPending env (checkMember env n) key decl
      Check.setProgress key ⟨.done, true⟩) (t.mark key ⟨.checking, false⟩) := by
  have found : Check.progress? key t = .ok (some ⟨.pending, false⟩) t :=
    congrArg (EStateM.Result.ok · t) waiting
  simp only [checkMember, listed]
  simp only [bind, EStateM.bind, found]
  rfl

end Typing

namespace Window

variable {σ : Type} {w : Window σ} {n : Nat} {s t s' : Checking σ} {key : MemberKey}

/-- The scopes of all members are laid out as the places of imports say. -/
def Laid (w : Window σ) : Prop :=
  ∀ key decl, w.env.decls.lookup key = some decl → decl.scope.Laid w.home

/-- The last mark of the leading check. -/
theorem Moves.member (decl : PendingDecl) (listed : w.env.decls.lookup key = some decl)
    (waiting : s.progress.lookup key = some ⟨.pending, false⟩) (ready : s.Consistent w.env (n + 1))
    (advances : s.Advances w.env w.base (n + 1) (t.mark key ⟨.done, true⟩))
    (run : checkPending w.env (checkMember w.env n) key decl (s.mark key ⟨.checking, false⟩) = .ok () t)
    (finished : Finished w n key (s.mark key ⟨.checking, false⟩) t) :
    w.Moves (n + 1) s (t.mark key ⟨.done, true⟩) := by
  have first : s.Works w.env w.base n key (s.mark key ⟨.checking, false⟩) := begin_works ready waiting
  have start : s.Leads (s.mark key ⟨.checking, false⟩) :=
    .mark fun known => absurd known (not_typed_of_checking waiting)
  have last : t.Leads (t.mark key ⟨.done, true⟩) := .mark (by simp)
  have fresh := ready.waiting key _ waiting rfl
  obtain ⟨u, body, flag, labours, begun, rfl⟩ := finished
  have onward : u.Leads (Checking.mark key ⟨.done, true⟩ { u with bodies := (key, body) :: u.bodies }) :=
    (Leads.keep u body).trans last
  refine ⟨advances, start.trans (labours.leads.trans onward), ⟨?_, ?_⟩⟩
  · intro other pending
    by_cases same : other = key
    · subst same
      refine .inr ⟨?_, decl, n, _, _, listed, first.consistent, begun_mark waiting, .mark s other _, fresh,
        run, .refl _⟩
      rw [lookup_mark, if_pos rfl]
      exact congrArg (Option.map fun _ => _) begun
    · have there : (s.mark key ⟨.checking, false⟩).progress.lookup other = some ⟨.pending, false⟩ := by
        rw [lookup_mark, if_neg same]
        exact pending
      rw [lookup_mark, if_neg same]
      exact (labours.records.members other there).imp_right fun done =>
        ⟨done.1, (done.2.enter start.still).lead onward⟩
  · intro other path cached
    exact (labours.records.paths other path cached).imp_right fun absent =>
      ⟨absent.1, (absent.2.enter start.still).lead onward⟩

/-- Visits of the leading check leave what they do on record. -/
theorem moving (owned : Owned w.env w.base) (laid : w.Laid) (n : Nat) : w.Moving n := by
  induction n with
  | zero =>
    refine ⟨checkMember_keeps owned 0, fun key s s' ready run => ?_⟩
    obtain ⟨-, rfl⟩ := Check.pure_ok.mp run
    exact .refl ready
  | succ n ih =>
    have keeps := checkMember_keeps owned (n + 1)
    refine ⟨keeps, fun key s s' ready run => ?_⟩
    rcases checkMember_ok ready run with ⟨rfl, -⟩ | ⟨decl, t, listed, waiting, body, rfl⟩
    · exact .refl ready
    · have first : s.Works w.env w.base n key (s.mark key ⟨.checking, false⟩) := begin_works ready waiting
      refine .member decl listed waiting ready (keeps.advances key s _ ready run) body ?_
      exact (checkPending_follows ih (laid key decl listed) first.consistent (owned key decl listed) listed
        (begun_mark waiting) (first.consistent.decls key decl listed)
        (ready.waiting key _ waiting rfl) body).1

/-- The window for a following check with another room. -/
theorem Trails.room (trails : w.Trails t) (room : Nat) : Trails { w with room } t :=
  ⟨trails.alike, trails.params, trails.listed, trails.agree, trails.paths, trails.pending, trails.missing⟩

/-- What the two checks have in common but for the order of the members. -/
structure Twins (w : Window σ) : Prop where
  owned : Owned w.env w.base
  decls : ∀ key, w.other.decls.lookup key = w.env.decls.lookup key
  laid : w.Laid
  services : w.other.services = w.env.services
  items : w.other.items = w.env.items
  globals : w.other.globals = w.env.globals
  room : w.env.decls.length + 1 = w.room
  roomToo : w.other.decls.length + 1 = w.room

theorem Twins.ownedToo (twins : w.Twins) : Owned w.other w.base :=
  fun key decl listed => twins.owned key decl (twins.decls key ▸ listed)

theorem chased (twins : w.Twins) (records : w.Records w.first w.last) (room : Nat) :
    Chased { w with room } := by
  induction room with
  | zero =>
    refine ⟨moving twins.owned twins.laid, ⟨records.members, records.paths⟩, twins.services, twins.items,
      twins.globals, checkMember_keeps twins.ownedToo 0, ?_⟩
    intro key t ready _ waiting _
    have positive : 0 < t.pendingCount :=
      List.countP_pos_iff.mpr ⟨_, mem_of_lookup waiting, by simp⟩
    exact absurd ready.pending (Nat.not_le_of_lt positive)
  | succ room ih =>
    refine ⟨moving twins.owned twins.laid, ⟨records.members, records.paths⟩, twins.services, twins.items,
      twins.globals, checkMember_keeps twins.ownedToo (room + 1), ?_⟩
    intro key t ready trails waiting known
    -- The member was not begun before the stretch, and it is done at its end.
    rcases records.members key (trails.pending key waiting) with still | ⟨-, run⟩
    · exact absurd known (not_typed_of_checking still)
    obtain ⟨decl, n, u, v, listed, readyThere, begun, still, fresh, ran, leads⟩ := run
    have onward : v.Leads w.last := (Leads.mark (by simp)).trans leads
    obtain ⟨finished, closes⟩ := checkPending_follows (ih.moving n) (twins.laid key decl listed) readyThere
      (twins.owned key decl listed) listed begun (readyThere.decls key decl listed) fresh ran
    obtain ⟨own, found, -, plain, -⟩ := (readyThere.decls key decl listed).symbol
    obtain ⟨twin, foundToo, -⟩ := (trails.sees (finished.leads.trans onward)).found found
    have freshToo := ready.waiting key _ waiting rfl twin foundToo
    have first : t.Works w.other w.base room key (t.mark key ⟨.checking, false⟩) := begin_works ready waiting
    have paired : Paired key false u (t.mark key ⟨.checking, false⟩) :=
      ⟨begun, begun_mark waiting, own, twin, found, foundToo, by rw [freshToo.1, (fresh own found).1],
        nofun, (fresh own found).2, freshToo.2⟩
    have lands := closes _ paired ih still onward first.consistent
      ((trails.room room).mark (by simp) nofun)
    show Lands _ _ (checkMember w.other (room + 1) key t)
    rw [checkMember_waiting ((twins.decls key).trans listed) waiting]
    refine Lands.bind lands ?_
    rintro _ t' - ⟨trailsNow, mine, other, there, thereToo, type, params⟩
    refine Trails.mark (trailsNow.room (room + 1)) (by simp) fun _ => ⟨known, fun a b late present => ?_⟩
    rw [thereToo, Option.some.injEq] at present
    obtain ⟨before, earlier, shaped⟩ := Symbols.member?_of_shape finished.leads.shape.symm there
    rw [found, Option.some.injEq] at earlier
    have stored : mine.isParam = false := by
      rw [MemberSymbol.isParam_eq_of_shape shaped.symm, ← earlier]
      exact plain
    obtain ⟨typeLate, paramsLate⟩ := leads.keeps (typed_mark_self (by simp)) there stored late
    rw [← present, type, params, typeLate, paramsLate]
    exact ⟨rfl, rfl⟩

/-- The stretch between two states. -/
def spanning (w : Window σ) (s s' : Checking σ) : Window σ := { w with first := s, last := s' }

/-- The stretch from the start of the window to another state. -/
def ending (w : Window σ) (s' : Checking σ) : Window σ := w.spanning w.first s'

/-- The other check takes the lead. -/
def swap (w : Window σ) : Window σ := { w with env := w.other, other := w.env }

theorem Twins.spanning (twins : w.Twins) (s s' : Checking σ) : (w.spanning s s').Twins :=
  { twins with laid := twins.laid }

theorem Twins.swap (twins : w.Twins) : w.swap.Twins where
  owned := twins.ownedToo
  decls key := (twins.decls key).symm
  laid key decl listed := twins.laid key decl ((twins.decls key).symm.trans listed)
  services := twins.services.symm
  items := twins.items.symm
  globals := twins.globals.symm
  room := twins.roomToo
  roomToo := twins.room

end Window

end ScriptShell
