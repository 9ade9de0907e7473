/-!
Interrupts. A pending interrupt is a flag that the running program takes down when it stops for
it. While a scope is open the interrupt key raises the flag; otherwise the handler that was
there before sees the key.
-/
namespace ScriptShell

/-- Who sees the interrupt key, and what came of it. -/
structure InterruptDesk where
  /-- An interrupt is pending. -/
  pending : Bool := false
  /-- The number of open scopes. -/
  scopes : Nat := 0
  /-- How often the outer handler saw the key. -/
  outer : Nat := 0
deriving Repr, DecidableEq

namespace InterruptDesk

/-- Opens a scope. -/
def open_ (desk : InterruptDesk) : InterruptDesk := { desk with scopes := desk.scopes + 1 }

/-- Closes the innermost scope, if one is open. -/
def close (desk : InterruptDesk) : InterruptDesk := { desk with scopes := desk.scopes - 1 }

/-- The interrupt key is pressed. -/
def press (desk : InterruptDesk) : InterruptDesk :=
  if desk.scopes = 0 then { desk with outer := desk.outer + 1 } else { desk with pending := true }

/-- Raises the flag. -/
def request (desk : InterruptDesk) : InterruptDesk := { desk with pending := true }

/-- Takes down the flag. -/
def clear (desk : InterruptDesk) : InterruptDesk := { desk with pending := false }

end InterruptDesk

end ScriptShell
