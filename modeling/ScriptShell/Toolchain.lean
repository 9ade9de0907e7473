import ScriptShell.Machine.Straight

/-!
The toolchain that code is loaded with. It reads library files, of which some hold code and others
are opened as they are, and it lends code the functions of the process that it runs in. Functions
that come from there compute a word from words; what else they may do to the process is not a
matter of the machine.
-/
namespace ScriptShell

/-- A function that does not come from a unit: what it makes of its arguments. -/
abbrev Foreign := List Int64 → Int64

/-- The functions of a library, by their symbols. -/
abbrev FunctionTable := List (String × Foreign)

namespace Toolchain

/-- Reads the code of a library file whose functions are straight-line. -/
def readStraight (path text : String) : Option FunctionTable :=
  if ".ll".toList.isSuffixOf path.toList then
    (StraightTable.ofText? text).map fun functions =>
      functions.map fun (symbol, function) => (symbol, function.eval)
  else none

end Toolchain

/-- What code is loaded with. -/
structure Toolchain where
  /-- The functions of the process. -/
  host : FunctionTable := []
  /-- The functions that a file of code defines, by its path and what it holds. -/
  readCode : String → String → Option FunctionTable := Toolchain.readStraight
  /-- The functions that a shared library offers. -/
  openShared : String → String → Option FunctionTable := fun _ _ => none

end ScriptShell
