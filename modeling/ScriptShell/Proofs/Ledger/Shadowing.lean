import Mathlib.Data.List.Induction
import Mathlib.Data.List.Nodup
import ScriptShell.Ledger

/-!
The ledger as a map in which the last entry of a name wins. A ledger that was written and cleared any number
of times holds, in the order in which their places were first taken, all wildcards since it was last cleared,
and for each name the last entry that was recorded under it. Which entries come before which matters, since
an earlier import is found first.
-/
namespace ScriptShell

namespace ImportEntry

/-- Two named entries for one name. -/
def sharesName (entry other : ImportEntry) : Bool :=
  !entry.wildcard && !other.wildcard && entry.name = other.name

/-- What stands in the place of an entry after another was recorded. -/
def replacedBy (entry other : ImportEntry) : ImportEntry :=
  if entry.sharesName other then other else entry

variable {entry other third : ImportEntry}

theorem sharesName_iff : entry.sharesName other = true ↔
    entry.wildcard = false ∧ other.wildcard = false ∧ entry.name = other.name := by
  simp [sharesName, and_assoc]

theorem sharesName_comm (entry other : ImportEntry) : entry.sharesName other = other.sharesName entry := by
  apply Bool.eq_iff_iff.mpr
  simp only [sharesName_iff]
  constructor <;> exact fun ⟨first, second, same⟩ => ⟨second, first, same.symm⟩

theorem sharesName_self (named : entry.wildcard = false) : entry.sharesName entry = true :=
  sharesName_iff.mpr ⟨named, named, rfl⟩

/-- Two entries of one name share it with the same others. -/
theorem sharesName_congr (h : entry.sharesName other = true) (third : ImportEntry) :
    entry.sharesName third = other.sharesName third := by
  obtain ⟨named, named', same⟩ := sharesName_iff.mp h
  simp [sharesName, named, named', same]

theorem sharesName_replacedBy (third : ImportEntry) :
    third.sharesName (entry.replacedBy other) = third.sharesName entry := by
  unfold replacedBy
  split
  next shares => rw [sharesName_comm, ← sharesName_congr shares, sharesName_comm]
  next => rfl

end ImportEntry

open ImportEntry

namespace Ledger

/-- What entries that were recorded one after the other come to: a wildcard in its place, and in the place of
the first entry of a name the last one. -/
def settled (entries : List ImportEntry) : List ImportEntry :=
  entries.zipIdx.filterMap fun (entry, index) =>
    if entry.wildcard then some entry
    else if (entries.take index).any entry.sharesName then none
    else (entries.filter entry.sharesName).getLast?

/-- The last entry of a name, once one more entry was recorded. -/
theorem getLast?_filter_concat {entries : List ImportEntry} {entry : ImportEntry} (among : entry ∈ entries)
    (named : entry.wildcard = false) (last : ImportEntry) :
    ((entries ++ [last]).filter entry.sharesName).getLast? =
      (entries.filter entry.sharesName).getLast?.map (·.replacedBy last) := by
  cases held : (entries.filter entry.sharesName).getLast? with
  | none =>
    have own := List.mem_filter.mpr ⟨among, sharesName_self named⟩
    rw [List.getLast?_eq_none_iff.mp held] at own
    cases own
  | some own =>
    have shares : entry.sharesName own = true := List.of_mem_filter (List.mem_of_getLast? held)
    rw [List.filter_append, Option.map_some, replacedBy, ← sharesName_congr shares]
    by_cases same : entry.sharesName last = true
    · simp [same]
    · simp [same, held]

/-- One more entry takes the place of the one of its name, or comes last. -/
theorem settled_concat (entries : List ImportEntry) (last : ImportEntry) :
    settled (entries ++ [last]) = (settled entries).map (·.replacedBy last) ++
      if entries.any last.sharesName then [] else [last] := by
  unfold settled
  rw [List.zipIdx_append, List.filterMap_append, List.map_filterMap]
  congr 1
  · apply List.filterMap_congr
    rintro ⟨entry, index⟩ listed
    obtain ⟨-, bound, -⟩ := List.mem_zipIdx listed
    have front : (entries ++ [last]).take index = entries.take index :=
      List.take_append_of_le_length (by omega)
    dsimp only
    rw [front]
    split
    next all =>
      have apart : entry.sharesName last = false := by simp [sharesName, all]
      simp [replacedBy, apart]
    next named =>
      split
      · rfl
      · exact getLast?_filter_concat (List.mem_of_getElem? (List.mem_zipIdx_iff_getElem?.mp listed))
          (by simpa using named) last
  · have front : (entries ++ [last]).take (0 + entries.length) = entries := by simp
    simp only [List.zipIdx_cons, List.zipIdx_nil, List.filterMap_cons, List.filterMap_nil, front]
    cases named : last.wildcard with
    | true =>
      have apart : entries.any last.sharesName = false := by simp [sharesName, named]
      simp [apart]
    | false =>
      have own : [last].filter last.sharesName = [last] := by simp [sharesName_self named]
      rw [List.filter_append, own, List.getLast?_concat]
      cases entries.any last.sharesName <;> simp

theorem any_settled (entries : List ImportEntry) (entry : ImportEntry) :
    (settled entries).any entry.sharesName = entries.any entry.sharesName := by
  induction entries using List.reverseRecOn with
  | nil => rfl
  | append_singleton front last ih =>
    have kept : ((settled front).map (·.replacedBy last)).any entry.sharesName =
        front.any entry.sharesName := by
      rw [List.any_map, ← ih]
      congr 1
      funext other
      exact sharesName_replacedBy entry
    rw [settled_concat, List.any_append, kept, List.any_append]
    cases known : front.any last.sharesName with
    | false => simp
    | true =>
      cases own : entry.sharesName last with
      | false => simp [own]
      | true =>
        have same : front.any entry.sharesName = true := by
          rw [funext (sharesName_congr own)]
          exact known
        simp [same]

/-- No two entries share a name. -/
def Distinct (entries : List ImportEntry) : Prop := entries.Pairwise fun a b => a.sharesName b = false

theorem Distinct.names_nodup {entries : List ImportEntry} (h : Distinct entries) :
    ((entries.filter (!·.wildcard)).map (·.name)).Nodup := by
  unfold List.Nodup
  rw [List.pairwise_map, List.pairwise_filter]
  apply h.imp
  intro first second apart named named' same
  have shares : first.sharesName second = true :=
    sharesName_iff.mpr ⟨by simpa using named, by simpa using named', same⟩
  rw [apart] at shares
  cases shares

theorem settled_distinct (entries : List ImportEntry) : Distinct (settled entries) := by
  induction entries using List.reverseRecOn with
  | nil => exact .nil
  | append_singleton front last ih =>
    rw [settled_concat]
    apply List.pairwise_append.mpr
    refine ⟨?_, by split <;> simp, ?_⟩
    · apply List.pairwise_map.mpr
      apply ih.imp
      intro a b apart
      rw [sharesName_replacedBy, sharesName_comm, sharesName_replacedBy, sharesName_comm]
      exact apart
    · intro other listed new own
      split at own
      · cases own
      next fresh =>
        obtain ⟨old, among, rfl⟩ := List.mem_map.mp listed
        obtain rfl := List.mem_singleton.mp own
        rw [sharesName_comm, sharesName_replacedBy]
        rw [← any_settled, Bool.not_eq_true, List.any_eq_false] at fresh
        exact Bool.eq_false_iff.mpr (fresh old among)

/-- In a ledger without two entries of one name, the place of a name is the only one. -/
theorem place_eq {entry : ImportEntry} (named : entry.wildcard = false) {entries : List ImportEntry}
    (distinct : Distinct entries) : place entry entries = entries.map (·.replacedBy entry) ++
      if entries.any entry.sharesName then [] else [entry] := by
  induction entries with
  | nil => rfl
  | cons first rest ih =>
    obtain ⟨apart, distinct⟩ := List.pairwise_cons.mp distinct
    have test : (!first.wildcard && decide (first.name = entry.name)) = first.sharesName entry := by
      simp [sharesName, named]
    unfold place
    rw [test]
    cases own : first.sharesName entry with
    | true =>
      have others : rest.map (·.replacedBy entry) = rest := by
        apply (List.map_congr_left ?_).trans (List.map_id rest)
        intro other listed
        unfold replacedBy
        rw [sharesName_comm, ← sharesName_congr own, apart other listed]
        rfl
      have own' : entry.sharesName first = true := by rw [sharesName_comm, own]
      have new : first.replacedBy entry = entry := by simp [replacedBy, own]
      rw [if_pos rfl, List.map_cons, new, others]
      simp [own']
    | false =>
      have own' : entry.sharesName first = false := by rw [sharesName_comm, own]
      rw [if_neg (by simp), ih distinct]
      simp [replacedBy, own, own']

/-- An entry that is recorded keeps a ledger settled. -/
theorem insert_settled {ledger : Ledger} {entries : List ImportEntry} (h : ledger.entries = settled entries)
    (entry : ImportEntry) : (ledger.insert entry).entries = settled (entries ++ [entry]) := by
  have held : (ledger.insert entry).entries =
      if entry.wildcard then ledger.entries ++ [entry] else place entry ledger.entries := rfl
  rw [held, settled_concat, h]
  split
  next all =>
    have kept : ∀ other : ImportEntry, other.replacedBy entry = other := by simp [replacedBy, sharesName, all]
    simp [kept, sharesName, all]
  next named =>
    rw [place_eq (by simpa using named) (settled_distinct entries), any_settled]

/-- Entries that are recorded in order keep a ledger settled. -/
theorem update_settled {ledger : Ledger} {earlier : List ImportEntry} (h : ledger.entries = settled earlier)
    (entries : List ImportEntry) : (ledger.update entries).entries = settled (earlier ++ entries) := by
  induction entries generalizing ledger earlier with
  | nil => rw [List.append_nil]; exact h
  | cons entry rest ih =>
    rw [List.append_cons]
    exact ih (insert_settled h entry)

theorem update_append (ledger : Ledger) (first second : List ImportEntry) :
    (ledger.update first).update second = ledger.update (first ++ second) :=
  (List.foldl_append).symm

theorem renderLines_eq (entries : List ImportEntry) :
    renderLines entries = String.join (entries.map (·.render ++ "\n")) := by
  induction entries with
  | nil => rfl
  | cons entry rest ih => rw [renderLines, ih, List.map_cons, String.join_cons]

/-- What is done to a ledger. -/
inductive Call where
  | update (entries : List ImportEntry)
  | clear

/-- A ledger after something was done to it. -/
def perform (ledger : Ledger) : Call → Ledger
  | .update entries => ledger.update entries
  | .clear => {}

/-- The entries that were recorded since a ledger was last cleared, behind the earlier ones. -/
def recorded (earlier : List ImportEntry) : List Call → List ImportEntry
  | [] => earlier
  | .update entries :: rest => recorded (earlier ++ entries) rest
  | .clear :: rest => recorded [] rest

theorem perform_settled {ledger : Ledger} {earlier : List ImportEntry} (h : ledger.entries = settled earlier)
    (calls : List Call) : (calls.foldl perform ledger).entries = settled (recorded earlier calls) := by
  induction calls generalizing ledger earlier with
  | nil => exact h
  | cons call rest ih =>
    cases call with
    | update entries => exact ih (update_settled h entries)
    | clear => exact ih rfl

/-- The ledger is a map in which the last entry of a name wins and keeps the place of the first. -/
theorem calls_settle (calls : List Call) (names : List String) :
    let ledger : Ledger := calls.foldl perform {}
    ledger.entries = settled (recorded [] calls) ∧
      ((ledger.entries.filter (!·.wildcard)).map (·.name)).Nodup ∧
      (∀ first second, (ledger.update first).update second = ledger.update (first ++ second)) ∧
      ledger.blockFor names = String.join ((ledger.entries.filter fun entry =>
        entry.wildcard ∨ entry.implicit ∨ entry.name ∈ names).map (·.render ++ "\n")) := by
  intro ledger
  have start : ({} : Ledger).entries = settled [] := rfl
  have settles : ledger.entries = settled (recorded [] calls) := perform_settled start calls
  refine ⟨settles, ?_, update_append ledger, ?_⟩
  · rw [settles]
    exact (settled_distinct _).names_nodup
  · unfold blockFor
    rw [renderLines_eq]
    congr 3
    funext entry
    simp [needed, Bool.or_assoc]

end Ledger

end ScriptShell
