import Mathlib.Tactic.Tauto
import ScriptShell.Files
import ScriptShell.Text.Sorted

/-!
Lists of texts. Names are put in order, each of them once. Texts that are joined with a mark between them are
cut there again, as long as none of them has the mark in it.
-/
namespace ScriptShell

variable {name other : String} {names : List String}

theorem mem_insertName : name ∈ insertName other names ↔ name = other ∨ name ∈ names := by
  induction names with
  | nil => simp [insertName]
  | cons first rest ih =>
    unfold insertName
    split
    · next same => simp [same]
    · split
      · simp
      · simp only [List.mem_cons, ih]
        tauto

theorem mem_sortNames : name ∈ sortNames names ↔ name ∈ names := by
  have folded (sorted : List String) :
      name ∈ names.foldl (fun sorted name => insertName name sorted) sorted ↔
        name ∈ names ∨ name ∈ sorted := by
    induction names generalizing sorted with
    | nil => simp
    | cons first rest ih =>
      rw [List.foldl_cons, ih, mem_insertName, List.mem_cons]
      tauto
  simpa [sortNames] using folded []

/-- A name that is added to an increasing list goes to its place. -/
theorem insertName_increasing (sorted : names.Pairwise (· < ·)) :
    (insertName name names).Pairwise (· < ·) := by
  induction names with
  | nil => simp [insertName]
  | cons first rest ih =>
    obtain ⟨least, others⟩ := List.pairwise_cons.mp sorted
    unfold insertName
    split
    next => exact sorted
    next other =>
      split
      next before =>
        refine .cons (fun later among => ?_) sorted
        obtain rfl | further := List.mem_cons.mp among
        · exact before
        · exact String.lt_trans before (least later further)
      next behind =>
        refine .cons (fun later among => ?_) (ih others)
        obtain rfl | further := mem_insertName.mp among
        · exact Std.lt_of_le_of_ne (String.not_lt.mp behind) (Ne.symm other)
        · exact least later further

theorem sortNames_increasing (names : List String) : (sortNames names).Pairwise (· < ·) := by
  have folded (sorted : List String) (increasing : sorted.Pairwise (· < ·)) :
      (names.foldl (fun sorted name => insertName name sorted) sorted).Pairwise (· < ·) := by
    induction names generalizing sorted with
    | nil => exact increasing
    | cons first rest ih => exact ih _ (insertName_increasing increasing)
  exact folded [] .nil

theorem joinWith_cons (separator text : String) {rest : List String} (some : rest ≠ []) :
    (joinWith separator (text :: rest)).toList =
      text.toList ++ (separator.toList ++ (joinWith separator rest).toList) := by
  obtain ⟨second, others, rfl⟩ := List.exists_cons_of_ne_nil some
  simp [joinWith]

theorem mem_joinPath {c : Char} {segments : List String} (among : c ∈ (joinPath segments).toList) :
    c = '.' ∨ ∃ segment ∈ segments, c ∈ segment.toList := by
  unfold joinPath at among
  induction segments with
  | nil => simp [joinWith] at among
  | cons first rest ih =>
    cases rest with
    | nil => exact .inr ⟨first, List.mem_cons_self, among⟩
    | cons second rest =>
      simp only [joinWith, String.toList_append, List.mem_append] at among
      rcases among with (own | dot) | later
      · exact .inr ⟨first, List.mem_cons_self, own⟩
      · exact .inl (by simpa using dot)
      · rcases ih later with dot | ⟨segment, listed, own⟩
        · exact .inl dot
        · exact .inr ⟨segment, List.mem_cons_of_mem _ listed, own⟩

namespace Files

variable {mark : Char} {piece : List Char}

theorem splitAt_piece (own : mark ∉ piece) (rest : List Char) :
    splitAt mark (piece ++ mark :: rest) = piece :: splitAt mark rest := by
  induction piece with
  | nil => simp [splitAt]
  | cons c piece ih =>
    obtain ⟨other, free⟩ := not_or.mp (mt List.mem_cons.mpr own)
    rw [List.cons_append, splitAt, if_neg (Ne.symm other), ih free]

theorem splitAt_unmarked (own : mark ∉ piece) : splitAt mark piece = [piece] := by
  induction piece with
  | nil => rfl
  | cons c piece ih =>
    obtain ⟨other, free⟩ := not_or.mp (mt List.mem_cons.mpr own)
    rw [splitAt, if_neg (Ne.symm other), ih free]

theorem splitAt_ne_nil (mark : Char) (text : List Char) : splitAt mark text ≠ [] := by
  cases text with
  | nil => simp [splitAt]
  | cons c rest =>
    unfold splitAt
    repeat' split
    all_goals simp

/-- A path is cut into its segments. -/
theorem splitAt_joinPath {segments : List String} (some : segments ≠ [])
    (own : ∀ segment ∈ segments, '.' ∉ segment.toList) :
    splitAt '.' (joinPath segments).toList = segments.map String.toList := by
  induction segments with
  | nil => exact absurd rfl some
  | cons segment rest ih =>
    rw [List.forall_mem_cons] at own
    by_cases more : rest = []
    · rw [more]
      exact splitAt_unmarked own.1
    · rw [joinPath, joinWith_cons _ _ more, List.map_cons, ← ih more own.2]
      exact splitAt_piece own.1 _

end Files

end ScriptShell
