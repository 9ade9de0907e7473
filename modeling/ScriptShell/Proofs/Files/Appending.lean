import ScriptShell.Files

/-!
Files that grow. A text that is added to a file stands behind what the file held before, the path of the file
leads to it as before, and whoever reads it there finds both. Directories stay where they are, since only
places are added to the tree.
-/
namespace ScriptShell.Files

variable {files : Files} {place dir : Place} {path content text : String}

theorem isDirectoryAt_iff : files.isDirectoryAt dir = true ↔
    dir.names = [] ∨ ∃ other ∈ files.entries.map Prod.fst, isBelow dir other = true := by
  simp [isDirectoryAt]

/-- The places of the files, with that of a file that is written. -/
theorem mem_places_put {other : Place} : other ∈ (files.put place content).entries.map Prod.fst ↔
    other ∈ files.entries.map Prod.fst ∨ other = place := by
  unfold put
  split
  next found =>
    obtain ⟨old, held⟩ := Option.isSome_iff_exists.mp found
    have among : place ∈ files.entries.map Prod.fst := by
      obtain ⟨entry, listed, -⟩ := Option.map_eq_some_iff.mp held
      have same : entry.1 = place := by simpa using List.find?_some listed
      exact same ▸ List.mem_map_of_mem (List.mem_of_find?_eq_some listed)
    have kept : (files.entries.map fun entry => if entry.1 = place then (place, content) else entry).map
        Prod.fst = files.entries.map Prod.fst := by
      rw [List.map_map]
      apply List.map_congr_left
      intro entry listed
      by_cases own : entry.1 = place <;> simp [own]
    rw [kept]
    constructor
    · exact .inl
    · rintro (listed | rfl)
      · exact listed
      · exact among
  next fresh => simp

theorem not_isBelow_self (place : Place) : isBelow place place = false := by
  simp [isBelow]

/-- Directories stay directories. -/
theorem isDirectoryAt_put (h : files.isDirectoryAt dir = true) :
    (files.put place content).isDirectoryAt dir = true := by
  rw [isDirectoryAt_iff] at h ⊢
  apply h.imp_right
  rintro ⟨other, listed, below⟩
  exact ⟨other, mem_places_put.mpr (.inl listed), below⟩

/-- A place that is written does not become a directory. -/
theorem isDirectoryAt_put_self :
    (files.put place content).isDirectoryAt place = files.isDirectoryAt place := by
  apply Bool.eq_iff_iff.mpr
  constructor
  · intro h
    rw [isDirectoryAt_iff] at h ⊢
    apply h.imp_right
    rintro ⟨other, listed, below⟩
    rcases mem_places_put.mp listed with old | rfl
    · exact ⟨other, old, below⟩
    · rw [not_isBelow_self] at below
      cases below
  · exact isDirectoryAt_put

theorem contentAt?_put_self : (files.put place content).contentAt? place = some content := by
  unfold put
  split
  next found =>
    obtain ⟨entry, listed⟩ := Option.isSome_iff_exists.mp (Option.isSome_map.symm.trans found)
    have same : entry.1 = place := by simpa using List.find?_some listed
    have first : ((fun other : Place × String => decide (other.1 = place)) ∘
        fun other => if other.1 = place then (place, content) else other) =
        fun other => decide (other.1 = place) := by
      funext other
      by_cases own : other.1 = place <;> simp [own]
    rw [contentAt?, List.find?_map, first, listed]
    simp [same]
  next fresh =>
    have none : files.entries.find? (·.1 = place) = none :=
      Option.map_eq_none_iff.mp (Option.not_isSome_iff_eq_none.mp fresh)
    simp [contentAt?, List.find?_append, none]

/-- The walk along a path goes where it went before. -/
theorem walk_put {start : Place} {segments : List String} {reached : Place}
    (h : files.walk start segments = .ok reached) :
    (files.put place content).walk start segments = .ok reached := by
  induction segments generalizing start with
  | nil => exact h
  | cons segment rest ih =>
    unfold walk at h ⊢
    split at h
    next directory =>
      rw [if_pos (isDirectoryAt_put directory)]
      exact ih h
    next => cases h

/-- Trailing separators are all that a path to be written leaves out. -/
theorem dropEnd_empty {segments : List String} (last : segments.getLast? ≠ some "") :
    (segments.reverse.dropWhile (·.isEmpty)).reverse = segments := by
  cases back : segments.reverse with
  | nil => simpa using back
  | cons segment rest =>
    rw [List.getLast?_eq_head?_reverse, back] at last
    have named : segment ≠ "" := by simpa using last
    rw [List.dropWhile_cons_of_neg (by simpa using named), ← back, List.reverse_reverse]

/-- A path can be written where it leads to a place that is no directory, and does not end in a separator. -/
theorem writable_iff : files.writable path = .ok place ↔
    files.locate path = .ok place ∧ (segments (Ascii.untilNul path)).getLast? ≠ some "" ∧
      files.isDirectoryAt place = false := by
  unfold writable locate
  generalize Ascii.untilNul path = shown
  dsimp only
  split
  next => simp [throw, throwThe, MonadExceptOf.throw, bind, Except.bind]
  next named =>
    by_cases last : (segments shown).getLast? = some ""
    · cases files.walk (origin shown) ((segments shown).reverse.dropWhile (·.isEmpty)).reverse <;>
        simp [last, throw, throwThe, MonadExceptOf.throw, bind, Except.bind]
    · rw [dropEnd_empty last]
      cases files.walk (origin shown) (segments shown) with
      | error error => simp [bind, Except.bind]
      | ok reached =>
        cases directory : files.isDirectoryAt reached <;>
          simp [last, directory, throw, throwThe, MonadExceptOf.throw, bind, Except.bind, pure, Except.pure] <;>
          (rintro rfl; exact directory)

/-- What can be written can be written again. -/
theorem writable_put (h : files.writable path = .ok place) :
    (files.put place content).writable path = .ok place := by
  obtain ⟨located, last, plain⟩ := writable_iff.mp h
  apply writable_iff.mpr
  refine ⟨?_, last, isDirectoryAt_put_self.trans plain⟩
  unfold locate at located ⊢
  simp only at located ⊢
  split at located
  · cases located
  next named =>
    rw [if_neg named]
    exact walk_put located

/-- What stands at a place that can be written is read under its path. -/
theorem read?_of_writable (h : files.writable path = .ok place) :
    files.read? path = files.contentAt? place := by
  obtain ⟨located, -, plain⟩ := writable_iff.mp h
  unfold read? read
  rw [located]
  cases held : files.contentAt? place <;>
    simp [plain, held, bind, Except.bind, pure, Except.pure, throw, throwThe, MonadExceptOf.throw, Except.toOption]

/-- An added text stands behind what the file held, where the next one is added and read. -/
theorem append_spec (h : files.writable path = .ok place) (text : String) :
    ∃ longer, files.append path text = .ok longer ∧ longer.writable path = .ok place ∧
      longer.read? path = some ((files.read? path).getD "" ++ text) := by
  refine ⟨files.put place ((files.contentAt? place).getD "" ++ text), ?_, writable_put h, ?_⟩
  · unfold append
    rw [h]
    rfl
  · rw [read?_of_writable (writable_put h), contentAt?_put_self, read?_of_writable h]

end ScriptShell.Files
