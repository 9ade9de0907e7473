import ScriptShell.Files

/-!
Straight-line functions, the code of plain library files. A function works on words alone: it has
named parameters, steps that each compute a new name from two operands, and one result. A file is
read line by line; one line that is none of the known forms refuses the whole file.
-/
namespace ScriptShell

/-- Operations of a step, on words. -/
inductive StraightOp where
  | add | sub | mul | xor
deriving Repr, DecidableEq

namespace StraightOp

/-- The operation with a name. -/
def ofName? : String → Option StraightOp
  | "add" => some .add
  | "sub" => some .sub
  | "mul" => some .mul
  | "xor" => some .xor
  | _ => none

/-- The result of an operation; words wrap around. -/
def apply : StraightOp → Int64 → Int64 → Int64
  | .add, left, right => left + right
  | .sub, left, right => left - right
  | .mul, left, right => left * right
  | .xor, left, right => left ^^^ right

end StraightOp

/-- An operand: a number, or a name that a parameter or an earlier step gave. -/
inductive Operand where
  | number (value : Int64)
  | name (name : String)
deriving Repr, DecidableEq

/-- One step of a function. -/
structure StraightStep where
  target : String
  op : StraightOp
  left : Operand
  right : Operand
deriving Repr, DecidableEq

/-- A straight-line function. -/
structure Straight where
  params : List String
  steps : List StraightStep
  result : Operand
deriving Repr, DecidableEq

namespace Straight

/-- The value of an operand. -/
def operand (known : List (String × Int64)) : Operand → Int64
  | .number value => value
  | .name name => (known.lookup name).getD 0

/-- The result of a function. Missing arguments are zero. -/
def eval (function : Straight) (args : List Int64) : Int64 :=
  let known := function.params.zip args
  let known := function.steps.foldl (fun known step =>
    (step.target, step.op.apply (operand known step.left) (operand known step.right)) :: known)
    known
  operand known function.result

end Straight

/-- The functions of a library file, by their symbols. -/
abbrev StraightTable := List (String × Straight)

namespace StraightTable

/-- Characters that are words of their own. -/
def isMark (c : Char) : Bool :=
  c = '(' || c = ')' || c = ',' || c = '=' || c = '\x7b' || c = '\x7d'

/-- The words of a line; `word` is the one being read, last character first. -/
def words (word : List Char) : List Char → List String
  | [] => finish word []
  | c :: rest =>
    if Ascii.isSpace c then finish word (words [] rest)
    else if isMark c then finish word (String.singleton c :: words [] rest)
    else words (c :: word) rest
where
  /-- Ends the word being read. -/
  finish (word : List Char) (rest : List String) : List String :=
    if word.isEmpty then rest else String.ofList word.reverse :: rest

/-- The words of a line in front of a comment. -/
def lineWords (line : List Char) : List String := words [] (line.takeWhile (· ≠ ';'))

/-- A character of a name. -/
def isNameChar (c : Char) : Bool := Ascii.isWord c || c = '.' || c = '-'

/-- The name behind a sigil. -/
def named? (sigil : Char) (word : String) : Option String :=
  match word.toList with
  | [] => none
  | c :: name =>
    if c = sigil && !name.isEmpty && name.all isNameChar then some (String.ofList name) else none

/-- A decimal number, perhaps with a minus sign. -/
def number? (word : String) : Option Int64 :=
  let value (digits : List Char) : Nat := digits.foldl (fun n c => 10 * n + (c.toNat - '0'.toNat)) 0
  match word.toList with
  | '-' :: digits =>
    if !digits.isEmpty && digits.all Char.isDigit then some (Int64.ofInt (-(value digits : Int)))
    else none
  | digits =>
    if !digits.isEmpty && digits.all Char.isDigit then some (Int64.ofNat (value digits)) else none

/-- An operand whose name is known. -/
def operand? (known : List String) (word : String) : Option Operand :=
  match number? word with
  | some value => some (.number value)
  | none => do
    let name ← named? '%' word
    if known.contains name then some (.name name) else none

/-- The parameters of a function, up to the end of its first line. -/
def params? : List String → Option (List String)
  | [")", "\x7b"] => some []
  | ["i64", word, ")", "\x7b"] => (named? '%' word).map ([·])
  | "i64" :: word :: "," :: rest => do
    let name ← named? '%' word
    let others ← params? rest
    if others.isEmpty || others.contains name then none else some (name :: others)
  | _ => none

/-- A function being read. -/
structure Draft where
  name : String
  params : List String
  labelled : Bool := false
  steps : List StraightStep := []
  result : Option Operand := none

/-- The names a draft has given so far. -/
def Draft.known (draft : Draft) : List String := draft.params ++ draft.steps.map (·.target)

/-- What has been read of a file. -/
structure Reading where
  functions : StraightTable := []
  draft : Option Draft := none

/-- Reads a line between functions. -/
def Reading.outside (reading : Reading) : List String → Option Reading
  | [] => some reading
  | "define" :: "i64" :: word :: "(" :: rest => do
    let name ← named? '@' word
    let params ← params? rest
    if (reading.functions.lookup name).isSome then none
    else some { reading with draft := some { name, params } }
  | _ => none

/-- Reads a line of a function. -/
def Reading.inside (reading : Reading) (draft : Draft) (line : List String) : Option Reading :=
  match draft.result, line with
  | _, [] => some reading
  | some result, ["\x7d"] =>
    some { functions := reading.functions ++ [(draft.name, ⟨draft.params, draft.steps, result⟩)] }
  | some _, _ => none
  | none, ["entry:"] =>
    if draft.labelled || !draft.steps.isEmpty then none
    else some { reading with draft := some { draft with labelled := true } }
  | none, ["ret", "i64", word] => do
    let result ← operand? draft.known word
    some { reading with draft := some { draft with result := some result } }
  | none, [target, "=", op, "i64", left, ",", right] => do
    let target ← named? '%' target
    let op ← StraightOp.ofName? op
    let left ← operand? draft.known left
    let right ← operand? draft.known right
    if draft.known.contains target then none
    else some { reading with
      draft := some { draft with steps := draft.steps ++ [⟨target, op, left, right⟩] } }
  | none, _ => none

/-- Reads a line. -/
def Reading.line (reading : Reading) (line : List String) : Option Reading :=
  match reading.draft with
  | none => reading.outside line
  | some draft => reading.inside draft line

/-- The functions of a library file, unless it is refused. -/
def ofText? (text : String) : Option StraightTable := do
  let reading ← ((Files.splitAt '\n' text.toList).map lineWords).foldlM Reading.line {}
  if reading.draft.isSome then none else some reading.functions

end StraightTable

end ScriptShell
