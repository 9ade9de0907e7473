import ScriptShell.Machine.Address

/-!
The functions that every program can call: frames, objects, texts, division, and the ways to end
a program or to print. Each has a symbol, and takes and gives plain values.
-/
namespace ScriptShell

/-- Primitive functions. -/
inductive Primitive where
  | enter | leave | initModule | alloc | concat | strEq | intToStr | showInt | showStr | showObj
  | div | mod | exit | fail | println
deriving Repr, DecidableEq, Inhabited

namespace Primitive

/-- All primitive functions. -/
def all : List Primitive :=
  [.enter, .leave, .initModule, .alloc, .concat, .strEq, .intToStr, .showInt, .showStr, .showObj,
    .div, .mod, .exit, .fail, .println]

/-- The symbol of a primitive function. -/
def symbol : Primitive → String
  | .enter => "kiln_rt_enter"
  | .leave => "kiln_rt_leave"
  | .initModule => "kiln_rt_init_module"
  | .alloc => "kiln_rt_alloc"
  | .concat => "kiln_rt_concat"
  | .strEq => "kiln_rt_str_eq"
  | .intToStr => "kiln_rt_int_to_str"
  | .showInt => "kiln_rt_show_int"
  | .showStr => "kiln_rt_show_str"
  | .showObj => "kiln_rt_show_obj"
  | .div => "kiln_rt_div"
  | .mod => "kiln_rt_mod"
  | .exit => "kiln_rt_exit"
  | .fail => "kiln_rt_fail"
  | .println => "kiln_rt_println"

/-- How many arguments a primitive function takes. -/
def arity : Primitive → Nat
  | .leave | .exit => 0
  | .enter | .intToStr | .showInt | .showStr | .showObj | .fail | .println => 1
  | .initModule | .alloc | .concat | .strEq | .div | .mod => 2

/-- The primitive function with a symbol. -/
def ofSymbol? (symbol : String) : Option Primitive := all.find? (·.symbol = symbol)

theorem mem_all (primitive : Primitive) : primitive ∈ all := by
  cases primitive <;> decide

end Primitive

/-- A character of a quoted text. -/
def quoteChar (c : Char) : List Char :=
  match c with
  | '\n' => ['\\', 'n']
  | '\t' => ['\\', 't']
  | '\r' => ['\\', 'r']
  | '"' => ['\\', '"']
  | '\\' => ['\\', '\\']
  | c => [c]

/-- A text as it is written in a program. -/
def quoteText (text : String) : String :=
  String.ofList ('"' :: text.toList.flatMap quoteChar ++ ['"'])

/-- The text of a number. -/
def wordText (value : Int64) : String := toString value.toInt

/-- The text of an object: the name of its class and a number in six hexadecimal digits. -/
def objectText (className : String) (id : Nat) : String :=
  className ++ "@" ++ String.ofList (Nat.toDigits 16 (0x100001 + id))

namespace Machine

/-- The operands that the division of words is made for: the divisor is not zero, and the quotient is a
word. -/
def Divisible (left right : Int64) : Prop := right ≠ 0 ∧ ¬(left = Int64.minValue ∧ right = -1)

/-- The division of words, which has no result outside its domain. -/
def quotient (left right : Int64) (_ : Divisible left right) : Int64 := left / right

/-- The remainder that the division of words leaves. -/
def modulus (left right : Int64) (_ : Divisible left right) : Int64 := left % right

/-- The quotient, rounded toward zero. The one quotient that is no word wraps around. -/
def divide (left right : Int64) : Run Int64 :=
  if zero : right = 0 then raise .arithmeticError "/ by zero"
  else if wraps : left = Int64.minValue ∧ right = -1 then return Int64.minValue
  else return quotient left right ⟨zero, wraps⟩

/-- The remainder, with the sign of the dividend. -/
def remainder (left right : Int64) : Run Int64 :=
  if zero : right = 0 then raise .arithmeticError "/ by zero"
  else if minusOne : right = -1 then return 0
  else return modulus left right ⟨zero, fun both => minusOne both.2⟩

/-- An object as a text. -/
def showObject (object : Value) : Run Value := do
  match object with
  | .object ref =>
    let className ← readSlot object 0
    needText className
    makeText (objectText className.toText ref.id)
  | other =>
    unless other = .zero do goAstray .memory
    return .ofText "null"

/-- Goes astray if arguments are missing. -/
def needArgs (primitive : Primitive) (args : List Value) : Run Unit := do
  unless primitive.arity ≤ args.length do goAstray .memory

/-- What a primitive function does. Missing arguments are zero. -/
def applyPrimitive (primitive : Primitive) (args : List Value) : Run Value := do
  let machine ← get
  let first := machine.settle (args.headD .zero)
  let second := machine.settle (args.tail.headD .zero)
  match primitive with
  | .enter =>
    enter (match first with
      | .text ref => some ref.text
      | _ => none)
    return .zero
  | .leave =>
    leave
    return .zero
  | .initModule => return .zero
  | .alloc =>
    let slots ← address first
    if slots < 0 then goAstray .memory
    allocate slots.toNatClampNeg second
  | .concat =>
    needText first
    needText second
    makeText (first.toText ++ second.toText)
  | .strEq =>
    needText first
    needText second
    return .ofBool (first.toText = second.toText)
  | .intToStr | .showInt => makeText (wordText (← address first))
  | .showStr =>
    needText first
    makeText (quoteText first.toText)
  | .showObj => showObject first
  | .div => return .word (← divide (← address (args.headD .zero)) (← address (args.tail.headD .zero)))
  | .mod => return .word (← remainder (← address (args.headD .zero)) (← address (args.tail.headD .zero)))
  | .exit => raise .exit "exit requested"
  | .fail =>
    needText first
    raise .runtimeError first.toText
  | .println =>
    needText first
    printLine first.toText
    return .zero

/-- Calls a primitive function. -/
def callPrimitive (primitive : Primitive) (args : List Value) : Run Value := do
  needArgs primitive args
  applyPrimitive primitive args

end Machine

end ScriptShell
