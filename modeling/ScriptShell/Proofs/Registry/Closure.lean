import ScriptShell.Registry.Linking
import Mathlib.Data.Finset.Card
import Mathlib.Data.Finset.Range
import Mathlib.Data.List.TakeWhile

/-! Linked code leads to linked code. Linking goes on until everything that was reached is settled, and a
failure spreads until nothing that is linked leads to failed code. Both take as many turns as there is
code: a turn settles a piece of code, or fails one. -/
namespace ScriptShell.Registry

variable {registry : Registry} {index : Nat} {pending : List Nat}

/-- Code that may be called. -/
def IsLinked (registry : Registry) (index : Nat) : Prop :=
  ∃ bindings, registry.linkState index = .linked bindings

/-- Linked code leads to linked code only. -/
def Closed (registry : Registry) : Prop :=
  ∀ place, ∀ index ∈ reached (registry.linkState place).bindings, registry.IsLinked index

theorem isLinked_of_settled (settled : registry.isSettled index = true)
    (sane : registry.hasFailed index = false) : registry.IsLinked index := by
  unfold isSettled at settled
  unfold hasFailed at sane
  cases state : registry.linkState index with
  | unlinked => simp [state] at settled
  | linked bindings => exact ⟨bindings, state⟩
  | failed => simp [state] at sane

theorem IsLinked.settled (linked : registry.IsLinked index) : registry.isSettled index = true := by
  obtain ⟨bindings, state⟩ := linked
  simp [isSettled, state]

theorem linkState_outside (outside : registry.images.size ≤ index) : registry.linkState index = .failed := by
  simp [linkState, Array.getElem?_eq_none outside]

theorem linkState_linkOne_other {other : Nat} (differs : index ≠ other) :
    (registry.linkOne index).linkState other = registry.linkState other := by
  simp [linkState, linkOne, Array.getElem?_modify, differs]

/-- Linking a piece of code settles it. -/
theorem settled_linkOne : (registry.linkOne index).isSettled index = true := by
  unfold isSettled linkState linkOne
  simp only [Array.getElem?_modify, if_true]
  cases registry.images[index]? with
  | none => rfl
  | some image =>
    simp only [Option.map_some, Option.getD_some, decide_eq_true_eq]
    split <;> simp

theorem settled_linkOne_of_settled {other : Nat} (settled : registry.isSettled other = true) :
    (registry.linkOne index).isSettled other = true := by
  by_cases same : index = other
  · subst same
    exact settled_linkOne
  · unfold isSettled
    rw [linkState_linkOne_other same]
    exact settled

theorem settled_linkReached {other : Nat} (settled : registry.isSettled other = true) (turns : Nat)
    (pending : List Nat) : (registry.linkReached turns pending).isSettled other = true := by
  induction turns generalizing registry pending with
  | zero => exact settled
  | succ turns ih =>
    unfold linkReached
    split
    · exact settled
    · exact ih (settled_linkOne_of_settled settled) _

/-- The code that is still to be linked. -/
def unsettled (registry : Registry) : Finset Nat :=
  (Finset.range registry.images.size).filter fun index => registry.isSettled index = false

theorem unsettled_linkOne (fresh : registry.isSettled index = false) :
    (registry.linkOne index).unsettled.card < registry.unsettled.card := by
  have inside : index < registry.images.size := by
    by_contra outside
    simp [isSettled, linkState_outside (Nat.le_of_not_lt outside)] at fresh
  apply Finset.card_lt_card
  refine ⟨fun other listed => ?_, fun all => ?_⟩
  · simp only [unsettled, Finset.mem_filter, Finset.mem_range] at listed ⊢
    refine ⟨by simpa [linkOne] using listed.1, ?_⟩
    by_contra settled
    simp [settled_linkOne_of_settled (Bool.eq_true_of_not_eq_false settled)] at listed
  · have listed := @all index (by simp [unsettled, inside, fresh])
    simp [unsettled, settled_linkOne] at listed

theorem settled_of_card (none : registry.unsettled.card = 0) (index : Nat) :
    registry.isSettled index = true := by
  by_cases inside : index < registry.images.size
  · by_contra fresh
    have listed : index ∈ registry.unsettled := by simpa [unsettled, inside] using fresh
    rw [Finset.card_eq_zero.mp none] at listed
    cases listed
  · simp [isSettled, linkState_outside (Nat.le_of_not_lt inside)]

/-- What linked code leads to is settled, or waits to be linked. -/
def Awaits (registry : Registry) (pending : List Nat) : Prop :=
  ∀ place, ∀ index ∈ reached (registry.linkState place).bindings,
    registry.isSettled index = true ∨ index ∈ pending

theorem Awaits.linkOne {rest : List Nat} (awaits : registry.Awaits pending)
    (next : pending.dropWhile registry.isSettled = index :: rest) :
    (registry.linkOne index).Awaits (reached ((registry.linkOne index).linkState index).bindings ++ rest) := by
  have split : pending = pending.takeWhile registry.isSettled ++ index :: rest := by
    rw [← next, List.takeWhile_append_dropWhile]
  intro place other listed
  by_cases same : index = place
  · subst same
    exact .inr (List.mem_append_left _ listed)
  · rw [linkState_linkOne_other same] at listed
    obtain settled | waiting := awaits place other listed
    · exact .inl (settled_linkOne_of_settled settled)
    · rw [split, List.mem_append, List.mem_cons] at waiting
      obtain passed | rfl | waiting := waiting
      · exact .inl (settled_linkOne_of_settled (List.mem_takeWhile_imp passed))
      · exact .inl settled_linkOne
      · exact .inr (List.mem_append_right _ waiting)

/-- With a turn for each piece of code that is to be linked, everything reached is settled. -/
theorem linkReached_settles {turns : Nat} (awaits : registry.Awaits pending)
    (enough : registry.unsettled.card ≤ turns) :
    (registry.linkReached turns pending).Awaits [] ∧
      ∀ index ∈ pending, (registry.linkReached turns pending).isSettled index = true := by
  induction turns generalizing registry pending with
  | zero =>
    have all := settled_of_card (Nat.le_zero.mp enough)
    exact ⟨fun _ index _ => .inl (all index), fun index _ => all index⟩
  | succ turns ih =>
    unfold linkReached
    split
    · rename_i none
      have all : ∀ index ∈ pending, registry.isSettled index = true := by
        intro index listed
        exact List.dropWhile_eq_nil_iff.mp none index listed
      refine ⟨fun place index listed => .inl ?_, all⟩
      exact (awaits place index listed).elim id (all index)
    · rename_i index rest next
      have fresh : registry.isSettled index = false := by
        have := List.head?_dropWhile_not registry.isSettled pending
        rw [next] at this
        simpa using this
      have fewer := unsettled_linkOne fresh
      obtain ⟨closed, done⟩ := ih (awaits.linkOne next) (by omega)
      refine ⟨closed, fun other listed => ?_⟩
      have split : pending = pending.takeWhile registry.isSettled ++ index :: rest := by
        rw [← next, List.takeWhile_append_dropWhile]
      rw [split, List.mem_append, List.mem_cons] at listed
      obtain passed | rfl | listed := listed
      · exact settled_linkReached (settled_linkOne_of_settled (List.mem_takeWhile_imp passed)) _ _
      · exact settled_linkReached settled_linkOne _ _
      · exact done other (List.mem_append_right _ listed)

/-- The code that has been linked and has not failed. -/
def linkedCode (registry : Registry) : Finset Nat :=
  (Finset.range registry.images.size).filter fun index => (registry.linkState index).bindings ≠ []

/-- One turn of the spreading of failures. -/
def failLeading (registry : Registry) : Registry :=
  { registry with
    images := registry.images.map fun image =>
      if registry.leadsToFailed image then { image with link := .failed } else image }

theorem linkState_failLeading (registry : Registry) (index : Nat) : registry.failLeading.linkState index = .failed ∨
    registry.failLeading.linkState index = registry.linkState index := by
  unfold linkState failLeading
  simp only [Array.getElem?_map]
  cases registry.images[index]? with
  | none => exact .inl rfl
  | some image =>
    simp only [Option.map_some, Option.getD_some]
    split
    · exact .inl rfl
    · exact .inr rfl

theorem leadsToFailed_bindings {image : Image} (leads : registry.leadsToFailed image = true) :
    image.link.bindings ≠ [] := by
  intro none
  simp [leadsToFailed, none, reached] at leads

theorem linkedCode_failLeading (some : registry.images.any registry.leadsToFailed = true) :
    registry.failLeading.linkedCode.card < registry.linkedCode.card := by
  obtain ⟨index, inside, leads⟩ := Array.any_eq_true.mp some
  apply Finset.card_lt_card
  refine ⟨fun other listed => ?_, fun all => ?_⟩
  · simp only [linkedCode, Finset.mem_filter, Finset.mem_range] at listed ⊢
    refine ⟨by simpa [failLeading] using listed.1, ?_⟩
    obtain failed | same := linkState_failLeading registry other
    · simp [failed, LinkState.bindings] at listed
    · rw [← same]
      exact listed.2
  · have before : index ∈ registry.linkedCode := by
      simp only [linkedCode, Finset.mem_filter, Finset.mem_range]
      refine ⟨inside, ?_⟩
      simpa [linkState, inside] using leadsToFailed_bindings leads
    have after := all before
    simp [linkedCode, linkState, failLeading, inside, leads, LinkState.bindings] at after

/-- With a turn for each piece of linked code, nothing linked leads to failed code. -/
theorem spreadFailure_ends {turns : Nat} (enough : registry.linkedCode.card ≤ turns) :
    (registry.spreadFailure turns).images.any (registry.spreadFailure turns).leadsToFailed = false := by
  induction turns generalizing registry with
  | zero =>
    unfold spreadFailure
    by_contra leads
    obtain ⟨index, inside, leads⟩ := Array.any_eq_true.mp (Bool.eq_true_of_not_eq_false leads)
    have listed : index ∈ registry.linkedCode := by
      simp only [linkedCode, Finset.mem_filter, Finset.mem_range]
      refine ⟨inside, ?_⟩
      simpa [linkState, inside] using leadsToFailed_bindings leads
    rw [Finset.card_eq_zero.mp (Nat.le_zero.mp enough)] at listed
    cases listed
  | succ turns ih =>
    unfold spreadFailure
    by_cases some : registry.images.any registry.leadsToFailed = true
    · rw [if_pos some]
      have fewer := linkedCode_failLeading some
      exact @ih registry.failLeading (by omega)
    · rw [if_neg some]
      simpa using some

/-- Failures leave code as it is, or fail it. -/
theorem linkState_spreadFailure (registry : Registry) (turns index : Nat) :
    (registry.spreadFailure turns).linkState index = .failed ∨
      (registry.spreadFailure turns).linkState index = registry.linkState index := by
  induction turns generalizing registry with
  | zero => exact .inr rfl
  | succ turns ih =>
    unfold spreadFailure
    split
    · obtain failed | same := ih registry.failLeading
      · exact .inl failed
      · obtain failed | before := linkState_failLeading registry index
        · exact .inl (same.trans failed)
        · exact .inr (same.trans before)
    · exact .inr rfl

theorem settled_spreadFailure (settled : registry.isSettled index = true) (turns : Nat) :
    (registry.spreadFailure turns).isSettled index = true := by
  unfold isSettled at settled ⊢
  obtain failed | same := linkState_spreadFailure registry turns index
  · simp [failed]
  · rw [same]
    exact settled

theorem card_unsettled : registry.unsettled.card ≤ registry.images.size := by
  simpa [unsettled] using Finset.card_filter_le (Finset.range registry.images.size) _

theorem card_linkedCode : registry.linkedCode.card ≤ registry.images.size := by
  simpa [linkedCode] using Finset.card_filter_le (Finset.range registry.images.size) _

theorem size_linkReached (turns : Nat) (pending : List Nat) :
    (registry.linkReached turns pending).images.size = registry.images.size := by
  induction turns generalizing registry pending with
  | zero => rfl
  | succ turns ih =>
    unfold linkReached
    split
    · rfl
    · exact (ih _).trans (by simp [linkOne])

/-- Linking closes what is linked, and settles what it was asked for. -/
theorem Closed.linkAll (closed : registry.Closed) (pending : List Nat) :
    (registry.linkAll pending).Closed ∧
      ∀ index ∈ pending, (registry.linkAll pending).isSettled index = true := by
  have awaits : registry.Awaits pending := fun place index listed => .inl (closed place index listed).settled
  obtain ⟨settled, done⟩ := linkReached_settles awaits card_unsettled
  have ended : (registry.linkAll pending).images.any (registry.linkAll pending).leadsToFailed = false := by
    refine spreadFailure_ends ?_
    exact Nat.le_trans card_linkedCode (Nat.le_of_eq (size_linkReached registry.images.size pending))
  refine ⟨fun place index listed => ?_, fun index listed => settled_spreadFailure (done index listed) _⟩
  have state := linkState_spreadFailure (registry.linkReached registry.images.size pending)
    registry.images.size place
  change (registry.linkAll pending).linkState place = .failed ∨
    (registry.linkAll pending).linkState place = _ at state
  obtain failed | same := state
  · rw [failed] at listed
    cases listed
  · refine isLinked_of_settled ?_ ?_
    · rw [same] at listed
      exact settled_spreadFailure ((settled place index listed).elim id (by rintro ⟨⟩)) _
    · by_contra failed
      have inside : place < (registry.linkAll pending).images.size := by
        by_contra outside
        rw [linkState_outside (Nat.le_of_not_lt outside)] at listed
        cases listed
      have leads : (registry.linkAll pending).images.any (registry.linkAll pending).leadsToFailed = true := by
        refine Array.any_eq_true.mpr ⟨place, inside, List.any_eq_true.mpr ⟨index, ?_, ?_⟩⟩
        · simpa [linkState, inside] using listed
        · exact Bool.eq_true_of_not_eq_false failed
      rw [ended] at leads
      cases leads

end ScriptShell.Registry
