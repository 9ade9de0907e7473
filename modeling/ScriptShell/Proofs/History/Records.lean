import ScriptShell.Proofs.Files.Appending
import ScriptShell.History

/-!
What a history file gives back. Records are separated by three newlines, and a text is cut at the first three
of them that stand in a row; so the separator behind a record may be found one or two newlines too early, and
a separator inside a record cuts it. The records that were appended are the records that are loaded, exactly
if none is empty, none holds a separator, and only the last one ends in a newline.
-/
namespace ScriptShell.History

/-- No separator stands in a text. -/
def Unbroken (text : List Char) : Prop := ¬ separator.toList <:+: text

/-- Records that can be told apart when separators stand in front of them. -/
structure Separable (records : List (List Char)) : Prop where
  nonempty : ∀ record ∈ records, record ≠ []
  unbroken : ∀ record ∈ records, Unbroken record
  ends : ∀ record ∈ records.dropLast, record.getLast? ≠ some '\n'

/-- The text of records, each behind a separator. -/
def joined (records : List (List Char)) : List Char := records.flatMap (separator.toList ++ ·)

@[simp] theorem toList_separator : separator.toList = ['\n', '\n', '\n'] := rfl

section Cut

variable {text : List Char} {c : Char}

theorem unbroken_nil : Unbroken [] := by
  intro inside
  simp [separator] at inside

theorem Unbroken.tail (h : Unbroken (c :: text)) : Unbroken text :=
  fun inside => h (inside.trans (List.suffix_cons c text).isInfix)

/-- A character that starts no separator is in front of the cut. -/
theorem cut_cons (h : ¬ separator.toList <+: c :: text) :
    cut (c :: text) = (c :: (cut text).1, (cut text).2) := by
  rw [cut]
  rintro rest rfl rfl
  exact h (List.prefix_append separator.toList rest)

/-- A text without a separator is not cut. -/
theorem cut_unbroken (h : Unbroken text) : cut text = (text, []) := by
  induction text with
  | nil => rfl
  | cons c rest ih =>
    have start : ¬ separator.toList <+: c :: rest := fun front => h front.isInfix
    rw [cut_cons start, ih h.tail]

/-- A separator does not start in a record, if none stands there and no newline ends it. -/
theorem Unbroken.not_prefix (h : Unbroken text) (nonempty : text ≠ []) (last : text.getLast? ≠ some '\n')
    (rest : List Char) : ¬ separator.toList <+: text ++ rest := by
  rintro ⟨behind, split⟩
  match text, nonempty with
  | [c], _ =>
    simp only [toList_separator, List.cons_append, List.nil_append, List.cons.injEq] at split
    exact last (congrArg some split.1.symm)
  | [c, d], _ =>
    simp only [toList_separator, List.cons_append, List.nil_append, List.cons.injEq] at split
    exact last (congrArg some split.2.1.symm)
  | c :: d :: e :: more, _ =>
    simp only [toList_separator, List.cons_append, List.nil_append, List.cons.injEq] at split
    obtain ⟨rfl, rfl, rfl, -⟩ := split
    exact h (List.prefix_append separator.toList more).isInfix

/-- A text is cut behind a record that has no separator and does not end in a newline. -/
theorem cut_record (h : Unbroken text) (last : text.getLast? ≠ some '\n') (rest : List Char) :
    cut (text ++ (separator.toList ++ rest)) = (text, rest) := by
  induction text with
  | nil => rfl
  | cons c tail ih =>
    have start := h.not_prefix (List.cons_ne_nil c tail) last (separator.toList ++ rest)
    have inner : tail.getLast? ≠ some '\n' := by
      cases tail with
      | nil => simp
      | cons d more => simpa [List.getLast?_cons_cons] using last
    rw [List.cons_append] at start ⊢
    rw [cut_cons start, ih h.tail inner]

/-- What stands in front of the cut has no separator. Either the text has none, or a separator stands behind
it, and no newline in front of that. -/
theorem cut_spec (text : List Char) : Unbroken (cut text).1 ∧ (cut text = (text, []) ∨
    text = (cut text).1 ++ (separator.toList ++ (cut text).2) ∧ (cut text).1.getLast? ≠ some '\n') := by
  induction text with
  | nil => exact ⟨unbroken_nil, .inl rfl⟩
  | cons c rest ih =>
    by_cases start : separator.toList <+: c :: rest
    · obtain ⟨behind, whole⟩ := start
      rw [← whole]
      exact ⟨unbroken_nil, .inr ⟨rfl, by simp [cut]⟩⟩
    rw [cut_cons start]
    obtain ⟨unbroken, ways⟩ := ih
    have front : (cut rest).1 <+: rest := by
      rcases ways with same | ⟨whole, -⟩
      · exact ⟨[], by rw [same, List.append_nil]⟩
      · exact ⟨_, whole.symm⟩
    constructor
    · intro inside
      rcases List.infix_cons_iff.mp inside with first | later
      · exact start (first.trans (List.cons_prefix_cons.mpr ⟨rfl, front⟩))
      · exact unbroken later
    · rcases ways with same | ⟨whole, last⟩
      · exact .inl (by rw [same])
      · refine .inr ⟨by rw [List.cons_append, ← whole], ?_⟩
        cases shown : (cut rest).1 with
        | nil =>
          -- a newline in front of the separator would have been cut with its first two
          rintro ends
          obtain rfl : c = '\n' := by simpa using ends
          rw [shown] at whole
          apply start
          rw [whole]
          exact ⟨'\n' :: (cut rest).2, rfl⟩
        | cons d more =>
          rw [List.getLast?_cons_cons, ← shown]
          exact last

end Cut

section Split

theorem split_of_ne_nil {text : List Char} (nonempty : text ≠ []) : split text =
    if (cut text).1.isEmpty then split (cut text).2 else (cut text).1 :: split (cut text).2 := by
  obtain ⟨c, rest, rfl⟩ := List.exists_cons_of_ne_nil nonempty
  rw [split]

/-- A separator in front of a text is dropped. -/
theorem split_separator (text : List Char) : split (separator.toList ++ text) = split text := by
  rw [split_of_ne_nil (by simp [separator])]
  rfl

/-- What a text is split into can be told apart. -/
theorem split_separable (text : List Char) : Separable (split text) := by
  by_cases none : text = []
  · subst none
    rw [split]
    exact ⟨by simp, by simp, by simp⟩
  have shorter := (cut_length_lt_or_nil text).resolve_left none
  have rest := split_separable (cut text).2
  rw [split_of_ne_nil none]
  split
  next => exact rest
  next kept =>
    obtain ⟨unbroken, ways⟩ := cut_spec text
    have nonempty : (cut text).1 ≠ [] := by simpa using kept
    refine ⟨?_, ?_, ?_⟩
    · exact List.forall_mem_cons.mpr ⟨nonempty, rest.nonempty⟩
    · exact List.forall_mem_cons.mpr ⟨unbroken, rest.unbroken⟩
    · rcases ways with same | ⟨-, last⟩
      · rw [same, split]
        simp
      · cases behind : split (cut text).2 with
        | nil => simp
        | cons record more =>
          rw [List.dropLast_cons_cons, ← behind]
          exact List.forall_mem_cons.mpr ⟨last, rest.ends⟩
termination_by text.length

theorem Separable.tail {record : List Char} {records : List (List Char)}
    (h : Separable (record :: records)) : Separable records where
  nonempty := (List.forall_mem_cons.mp h.nonempty).2
  unbroken := (List.forall_mem_cons.mp h.unbroken).2
  ends := by
    cases records with
    | nil => simp
    | cons second more => exact (List.forall_mem_cons.mp h.ends).2

/-- Records that can be told apart are split again. -/
theorem Separable.split_joined {records : List (List Char)} (h : Separable records) :
    split (joined records) = records := by
  induction records with
  | nil => exact split.eq_1
  | cons record rest ih =>
    have own := h.nonempty record List.mem_cons_self
    have whole := h.unbroken record List.mem_cons_self
    have front : joined (record :: rest) = separator.toList ++ (record ++ joined rest) := by
      simp [joined]
    have found : (cut (record ++ joined rest)).1 = record ∧
        split (cut (record ++ joined rest)).2 = split (joined rest) := by
      cases rest with
      | nil =>
        rw [show joined [] = [] from rfl, List.append_nil, cut_unbroken whole]
        exact ⟨rfl, rfl⟩
      | cons second more =>
        have last := h.ends record (by simp)
        have behind : joined (second :: more) = separator.toList ++ (second ++ joined more) := by
          simp [joined]
        rw [behind, cut_record whole last, split_separator]
        exact ⟨rfl, rfl⟩
    rw [front, split_separator, split_of_ne_nil (by simp [own]), found.1, found.2, ih h.tail,
      if_neg (by simpa using own)]

theorem split_joined_iff {records : List (List Char)} :
    split (joined records) = records ↔ Separable records := by
  constructor
  · intro same
    rw [← same]
    exact split_separable _
  · exact Separable.split_joined

end Split

section Files

variable {files : Files} {path : String} {place : Place}

/-- Adds records in order. -/
def appendAll (files : Files) (path : String) (records : List String) : Except FileError Files :=
  records.foldlM (append · path) files

/-- A file that is missing is loaded like an empty one. -/
theorem load_eq (files : Files) (path : String) :
    load files path = History.records ((files.read? path).getD "") := by
  unfold load
  cases files.read? path with
  | some content => rfl
  | none =>
    have empty : History.records "" = [] := congrArg (List.map String.ofList) split.eq_1
    exact empty.symm

/-- Added records stand in the file in order, each behind a separator. -/
theorem appendAll_spec (writable : files.writable path = .ok place) (records : List String) :
    ∃ longer, appendAll files path records = .ok longer ∧ ((longer.read? path).getD "").toList =
      ((files.read? path).getD "").toList ++ joined (records.map String.toList) := by
  induction records generalizing files with
  | nil => exact ⟨files, rfl, by simp [joined]⟩
  | cons record rest ih =>
    obtain ⟨middle, first, again, held⟩ := Files.append_spec writable (separator ++ record)
    obtain ⟨longer, others, content⟩ := ih again
    refine ⟨longer, ?_, ?_⟩
    · unfold appendAll
      rw [List.foldlM_cons, show append files path record = .ok middle from first]
      exact others
    · rw [content, held]
      simp [joined]

/-- Records that are added in order to a file that was missing are the ones that are loaded from it, exactly
if none of them is empty, none holds a separator, and only the last one ends in a newline. Loading ends: each
cut leaves less of the file than there was. -/
theorem load_appendAll_iff (missing : files.exists? path = false)
    (writable : (files.writable path).isOk = true) (records : List String) :
    (∃ longer, appendAll files path records = .ok longer ∧ (load longer path = records ↔
      (∀ record ∈ records, record ≠ "" ∧ ¬ separator.toList <:+: record.toList) ∧
        ∀ record ∈ records.dropLast, record.toList.getLast? ≠ some '\n')) ∧
    ∀ text ≠ [], (cut text).2.length < text.length := by
  refine ⟨?_, fun text nonempty => (cut_length_lt_or_nil text).resolve_left nonempty⟩
  obtain ⟨place, leads⟩ : ∃ place, files.writable path = .ok place := by
    cases leads : files.writable path with
    | ok place => exact ⟨place, rfl⟩
    | error error =>
      rw [leads] at writable
      cases writable
  obtain ⟨longer, added, content⟩ := appendAll_spec leads records
  have none : files.read? path = none := by
    unfold Files.exists? Files.isFile at missing
    simpa using (Bool.or_eq_false_iff.mp missing).1
  rw [none] at content
  refine ⟨longer, added, ?_⟩
  have loads : load longer path = records ↔
      split (joined (records.map String.toList)) = records.map String.toList := by
    have back : ((split (joined (records.map String.toList))).map String.ofList).map String.toList =
        split (joined (records.map String.toList)) := by
      simp [Function.comp_def]
    have front : (records.map String.toList).map String.ofList = records := by
      simp [Function.comp_def]
    rw [load_eq, History.records, content]
    constructor
    · intro same
      rw [← back]
      exact congrArg (List.map String.toList) same
    · intro same
      exact (congrArg (List.map String.ofList) same).trans front
  rw [loads, split_joined_iff]
  constructor
  · rintro ⟨nonempty, unbroken, ends⟩
    rw [List.forall_mem_map] at nonempty unbroken
    rw [← List.map_dropLast, List.forall_mem_map] at ends
    exact ⟨fun record listed => ⟨fun empty => nonempty record listed (empty ▸ rfl),
      unbroken record listed⟩, ends⟩
  · rintro ⟨whole, ends⟩
    refine ⟨?_, ?_, ?_⟩
    · rw [List.forall_mem_map]
      intro record listed empty
      exact (whole record listed).1 (String.toList_eq_nil_iff.mp empty)
    · rw [List.forall_mem_map]
      exact fun record listed => (whole record listed).2
    · rw [← List.map_dropLast, List.forall_mem_map]
      exact ends

/-- Newlines may start a record and end the last one. One that ends an earlier record starts the next. -/
theorem load_appendAll_iff_of_newlines :
    ({} : Files).exists? "hist" = false ∧ (({} : Files).writable "hist").isOk = true ∧
    (∃ longer, appendAll {} "hist" ["\n\nval x = 1", "def f =\n\n  x", "f\n"] = .ok longer ∧
      load longer "hist" = ["\n\nval x = 1", "def f =\n\n  x", "f\n"]) ∧
    ∃ longer, appendAll {} "hist" ["val x = 1\n", "x"] = .ok longer ∧
      load longer "hist" ≠ ["val x = 1\n", "x"] := by
  have missing : ({} : Files).exists? "hist" = false := by decide +kernel
  have writable : (({} : Files).writable "hist").isOk = true := by decide +kernel
  obtain ⟨⟨first, added, recalled⟩, -⟩ :=
    load_appendAll_iff missing writable ["\n\nval x = 1", "def f =\n\n  x", "f\n"]
  obtain ⟨⟨second, added', recalled'⟩, -⟩ := load_appendAll_iff missing writable ["val x = 1\n", "x"]
  refine ⟨missing, writable, ⟨first, added, recalled.mpr (by decide +kernel)⟩, second, added', ?_⟩
  exact fun same => absurd (recalled'.mp same) (by decide +kernel)

end Files

end ScriptShell.History
