import ScriptShell.Machine

/-!
Addresses. Code that computes with a text or an object computes with its address, a word. Every
object has an address; a text gets one when it is first asked for. A word that is the address of
something stands for it, so that a reference survives every computation that gives back its
address. A word that leads into a text stands for the rest of it, and one that leads to a slot of
an object for the object from there on.
-/
namespace ScriptShell.Machine

/-- The address of the first text. -/
def textBase : Int64 := 0x200000000000

/-- The room for a text. -/
def textRoom : Nat := 0x1000000

/-- The address of the first object. -/
def objectBase : Int64 := 0x400000000000

/-- The room for an object. -/
def objectRoom : Nat := 0x10000

/-- The room for a slot of an object. -/
def slotRoom : Nat := 8

/-- The address of a text. One without an address is stored first. -/
def textAddress (ref : TextRef) : Run Int64 := do
  let machine ← get
  let entry := (ref.origin, ref.content)
  let number := (machine.stored.findIdx? (· = entry)).getD machine.stored.size
  if number = machine.stored.size then
    set { machine with stored := machine.stored.push entry }
  return textBase + Int64.ofNat (number * textRoom + ref.skipped)

/-- A value as a word. -/
def address : Value → Run Int64
  | .word value => return value
  | .text ref => textAddress ref
  | .object ref =>
    return objectBase + Int64.ofNat (ref.id * objectRoom + ref.skipped * slotRoom)

/-- The text at a distance from the first one. -/
def textAt? (machine : Machine) (distance : Nat) : Option TextRef := do
  let (origin, content) ← machine.stored[distance / textRoom]?
  if distance % textRoom ≤ content.length then some ⟨origin, content, distance % textRoom⟩
  else none

/-- The object at a distance from the first one. -/
def objectAt? (machine : Machine) (distance : Nat) : Option ObjectRef := do
  let slots ← machine.objects[distance / objectRoom]?
  let offset := distance % objectRoom
  if offset % slotRoom = 0 && offset / slotRoom < slots.length then
    some ⟨distance / objectRoom, offset / slotRoom⟩
  else none

/-- What a word stands for. -/
def valueAt (machine : Machine) (word : Int64) : Value :=
  if word < textBase then .word word
  else if word < objectBase then
    ((machine.textAt? (word - textBase).toNatClampNeg).map .text).getD (.word word)
  else ((machine.objectAt? (word - objectBase).toNatClampNeg).map .object).getD (.word word)

/-- A value, given as a reference if it is the address of one. -/
def settle (machine : Machine) : Value → Value
  | .word word => machine.valueAt word
  | value => value

/-- Applies a function on words to values. -/
def withWords (args : List Value) (f : List Int64 → Int64) : Run Value := do
  let words ← args.mapM address
  return (← get).valueAt (f words)

end ScriptShell.Machine
