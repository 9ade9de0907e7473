import ScriptShell.Files

/-!
The history file: the fragments entered so far, each behind three newlines. Reading drops
empty records, so a text is one record again only if it is not empty, holds no three newlines
in a row, and does not end in a newline that joins the separator behind it.
-/
namespace ScriptShell.History

/-- What stands in front of every record. -/
def separator : String := "\n\n\n"

/-- The text in front of the first separator, and the text behind it. -/
def cut : List Char → List Char × List Char
  | [] => ([], [])
  | '\n' :: '\n' :: '\n' :: rest => ([], rest)
  | c :: rest =>
    match cut rest with
    | (before, behind) => (c :: before, behind)

theorem cut_length_lt_or_nil (text : List Char) :
    text = [] ∨ (cut text).2.length < text.length := by
  fun_induction cut text with
  | case1 => exact .inl rfl
  | case2 rest => exact .inr (by simp only [List.length_cons]; omega)
  | case3 c rest _ before behind parts ih =>
    refine .inr ?_
    rcases ih with rfl | shorter
    · cases parts
      exact Nat.zero_lt_succ 0
    · simp only [parts, List.length_cons] at shorter ⊢
      omega

theorem cut_length_lt (c : Char) (rest : List Char) :
    (cut (c :: rest)).2.length < (c :: rest).length :=
  (cut_length_lt_or_nil (c :: rest)).resolve_left (List.cons_ne_nil c rest)

/-- The records of a history text, empty ones dropped. -/
def split : List Char → List (List Char)
  | [] => []
  | c :: rest =>
    have := cut_length_lt c rest
    let parts := cut (c :: rest)
    if parts.1.isEmpty then split parts.2 else parts.1 :: split parts.2
termination_by text => text.length
decreasing_by all_goals exact this

/-- The records of a history text. -/
def records (text : String) : List String := (split text.toList).map String.ofList

/-- The records of a history file. A file that cannot be read has none. -/
def load (files : Files) (path : String) : List String :=
  ((files.read? path).map records).getD []

/-- Adds a record to a history file. -/
def append (files : Files) (path record : String) : Except FileError Files :=
  files.append path (separator ++ record)

/-- The wording of a failed `append`. -/
def openFailure (path : String) (error : FileError) : String :=
  "cannot open history file " ++ path ++ ": " ++ error.message

end ScriptShell.History
