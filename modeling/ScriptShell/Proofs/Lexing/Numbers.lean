import Mathlib.Data.List.TakeWhile
import Mathlib.Data.Nat.Digits.Lemmas
import ScriptShell.Token.Lexer

/-!
Runs of decimal digits. Among runs of one length the order of texts is the order of values, so that a run is
in range exactly if it has at most nineteen digits and its value is at most the largest literal.
-/
namespace ScriptShell.Lexer

/-- The value of a digit. -/
def digitValue (digit : Char) : Nat := digit.toNat - '0'.toNat

/-- The number that digits are in the decimal system: the last one counts once, and every other one ten
times as much as the one behind it. -/
def decimal (digits : List Char) : Nat := Nat.ofDigits 10 (digits.reverse.map digitValue)

variable {first second : Char} {digits other : List Char}

theorem digitValue_eq (digit : first.isDigit = true) :
    first.toNat = 48 + digitValue first ∧ digitValue first < 10 := by
  have range := Char.isDigit_iff_toNat.mp digit
  have ends : '0'.toNat = 48 ∧ '9'.toNat = 57 := by decide
  unfold digitValue
  omega

/-- Digits are in the order of their values. -/
theorem digit_lt_iff (left : first.isDigit = true) (right : second.isDigit = true) :
    first < second ↔ digitValue first < digitValue second := by
  have one := digitValue_eq left
  have two := digitValue_eq right
  show first.toNat < second.toNat ↔ _
  omega

theorem digit_eq_iff (left : first.isDigit = true) (right : second.isDigit = true) :
    first = second ↔ digitValue first = digitValue second := by
  have one := digitValue_eq left
  have two := digitValue_eq right
  refine ⟨fun same => same ▸ rfl, fun same => Char.toNat_inj.mp (by omega)⟩

theorem decimal_cons (first : Char) (digits : List Char) :
    decimal (first :: digits) = 10 ^ digits.length * digitValue first + decimal digits := by
  simp [decimal, Nat.ofDigits_append, Nat.add_comm]

/-- The value that a run of digits is read as is the number that it is. -/
theorem digitsValue_eq_decimal (digits : List Char) : digitsValue digits = decimal digits := by
  induction digits with
  | nil => rfl
  | cons first rest ih =>
    have read : digitsValue (first :: rest) = 10 ^ rest.length * digitValue first + digitsValue rest := by
      show Nat.ofDigitChars 10 (first :: rest) 0 = 10 ^ rest.length * digitValue first + Nat.ofDigitChars 10 rest 0
      rw [Nat.ofDigitChars_cons, Nat.mul_zero, Nat.zero_add, Nat.ofDigitChars_eq_ofDigitChars_zero]
      rfl
    rw [read, ih, decimal_cons]

theorem decimal_lt (allDigits : ∀ c ∈ digits, c.isDigit = true) : decimal digits < 10 ^ digits.length := by
  have bound := Nat.ofDigits_lt_base_pow_length (b := 10) (l := digits.reverse.map digitValue) (by decide) (by
    intro value among
    obtain ⟨c, listed, rfl⟩ := List.mem_map.mp among
    exact (digitValue_eq (allDigits c (List.mem_reverse.mp listed))).2)
  simpa [decimal] using bound

/-- Among runs of one length the order of texts is the order of values. -/
theorem decimal_lt_iff (same : digits.length = other.length) (left : ∀ c ∈ digits, c.isDigit = true)
    (right : ∀ c ∈ other, c.isDigit = true) : digits < other ↔ decimal digits < decimal other := by
  induction digits generalizing other with
  | nil => simp [List.length_eq_zero_iff.mp same.symm]
  | cons first digits ih =>
    obtain _ | ⟨second, other⟩ := other
    · cases same
    obtain ⟨digit, left⟩ := List.forall_mem_cons.mp left
    obtain ⟨digit', right⟩ := List.forall_mem_cons.mp right
    have length : digits.length = other.length := Nat.succ.inj same
    have small := decimal_lt left
    have small' := decimal_lt right
    rw [length] at small
    rw [List.cons_lt_cons_iff, ih length left right, digit_lt_iff digit digit', digit_eq_iff digit digit',
      decimal_cons, decimal_cons, length]
    -- The first digits decide unless they are the same.
    rcases Nat.lt_trichotomy (digitValue first) (digitValue second) with less | equal | more
    · have apart := Nat.mul_le_mul_left (10 ^ other.length) less
      rw [Nat.mul_succ] at apart
      omega
    · rw [equal]
      omega
    · have apart := Nat.mul_le_mul_left (10 ^ other.length) more
      rw [Nat.mul_succ] at apart
      omega

/-- A run of digits is in range exactly if it has at most nineteen digits and is at most the largest
literal. -/
theorem outOfRange_eq_false_iff (allDigits : ∀ c ∈ digits, c.isDigit = true) :
    outOfRange digits = false ↔ digits.length ≤ 19 ∧ decimal digits ≤ maxLiteral := by
  have largest : decimal maxDigits = maxLiteral ∧ maxDigits.length = 19 ∧ maxDigits.all (·.isDigit) = true := by
    decide +kernel
  obtain ⟨value, length, all⟩ := largest
  have own : ∀ c ∈ maxDigits, c.isDigit = true := List.all_eq_true.mp all
  have small := decimal_lt allDigits
  simp only [outOfRange, Bool.or_eq_false_iff, decide_eq_false_iff_not, Bool.and_eq_false_imp, decide_eq_true_eq,
    Nat.not_lt]
  refine and_congr_right fun few => ?_
  obtain shorter | full := Nat.lt_or_eq_of_le few
  -- A shorter run is below ten to the eighteenth.
  · have below : 10 ^ digits.length ≤ 10 ^ 18 := Nat.pow_le_pow_right (by decide) (by omega)
    have range : 10 ^ 18 ≤ maxLiteral := by decide
    omega
  · rw [decimal_lt_iff (length.trans full.symm) own allDigits, value]
    omega

/-- A text that is an integer literal: digits, at most nineteen of them, of a number that is a word. -/
structure Numeral (text : List Char) : Prop where
  nonempty : text ≠ []
  digits : ∀ c ∈ text, c.isDigit = true
  few : text.length ≤ 19
  small : decimal text ≤ 2 ^ 63 - 1

theorem numeral_iff (nonempty : digits ≠ []) (allDigits : ∀ c ∈ digits, c.isDigit = true) :
    Numeral digits ↔ outOfRange digits = false := by
  rw [outOfRange_eq_false_iff allDigits]
  exact ⟨fun numeral => ⟨numeral.few, numeral.small⟩, fun range => ⟨nonempty, allDigits, range.1, range.2⟩⟩

/-- The word that is read from a text that starts with digits. Digits of a number that is no word give none. -/
def toWord? (text : List Char) : Option Int64 :=
  let digits := text.takeWhile Char.isDigit
  if digits = [] ∨ maxLiteral < digitsValue digits then none else some (Int64.ofNat (digitsValue digits))

theorem Numeral.hasWord {text : List Char} (numeral : Numeral text) :
    ∃ word, toWord? text = some word ∧ word.toInt = decimal text := by
  have whole : text.takeWhile Char.isDigit = text := List.takeWhile_eq_self_iff.mpr numeral.digits
  have below : ¬ maxLiteral < decimal text := Nat.not_lt.mpr numeral.small
  refine ⟨Int64.ofNat (decimal text), ?_, Int64.toInt_ofNat_of_lt (Nat.lt_of_le_pred (by decide) numeral.small)⟩
  rw [toWord?, whole, digitsValue_eq_decimal]
  simp [numeral.nonempty, below]

/-- A number is read as all the digits in front, if these are a numeral and no letter or `_` follows. -/
theorem number_eq_ok_iff {rest : List Char} {found : Lexeme} (run : ∀ c ∈ first :: digits, c.isDigit = true)
    (stops : ∀ c ∈ rest.head?, c.isDigit = false) : number first (digits ++ rest) = .ok found ↔
      (∀ c ∈ rest.head?, c.isAlpha = false ∧ c ≠ '_') ∧ Numeral (first :: digits) ∧
        found = ⟨.number, String.ofList (first :: digits), digits.length⟩ := by
  have inside : ∀ c ∈ digits, c.isDigit = true := fun c among => run c (List.mem_cons_of_mem _ among)
  have none : rest.takeWhile Char.isDigit = [] ∧ rest.dropWhile Char.isDigit = rest := by
    cases rest with
    | nil => exact ⟨rfl, rfl⟩
    | cons c rest => simp [stops c rfl]
  have taken : (digits ++ rest).takeWhile Char.isDigit = digits := by
    rw [List.takeWhile_append_of_pos inside, none.1, List.append_nil]
  have dropped : (digits ++ rest).dropWhile Char.isDigit = rest := by
    rw [List.dropWhile_append_of_pos inside, none.2]
  have outcome : (if outOfRange (first :: digits) = true then
        .error ⟨.numberOutOfRange (String.ofList (first :: digits)), 0⟩
      else .ok ⟨.number, String.ofList (first :: digits), digits.length⟩ : Except Flaw Lexeme) = .ok found ↔
        Numeral (first :: digits) ∧ found = ⟨.number, String.ofList (first :: digits), digits.length⟩ := by
    rw [numeral_iff (List.cons_ne_nil _ _) run]
    cases outOfRange (first :: digits) <;> simp [eq_comm]
  unfold number
  simp only [taken, dropped, List.length_cons, Nat.add_sub_cancel]
  cases rest with
  | nil => exact outcome.trans (by simp)
  | cons c rest =>
    dsimp only
    split
    next sticks =>
      refine ⟨fun sound => (by cases sound), fun whole => ?_⟩
      simp [Ascii.sticksToNumber, whole.1 c rfl] at sticks
    next free =>
      have plain : ∀ d ∈ (c :: rest).head?, d.isAlpha = false ∧ d ≠ '_' := by
        simpa [Ascii.sticksToNumber] using free
      exact outcome.trans (and_iff_right plain).symm

/-- What is lexed as a number is a numeral. -/
theorem number_numeral {rest : List Char} {found : Lexeme} (digit : first.isDigit = true)
    (read : number first rest = .ok found) : Numeral found.text.toList := by
  have run : ∀ c ∈ first :: rest.takeWhile Char.isDigit, c.isDigit = true :=
    List.forall_mem_cons.mpr ⟨digit, fun _ among => List.mem_takeWhile_imp among⟩
  have stops : ∀ c ∈ (rest.dropWhile Char.isDigit).head?, c.isDigit = false := by
    intro c next
    have fails := List.head?_dropWhile_not Char.isDigit rest
    rw [Option.mem_def.mp next] at fails
    simpa using fails
  rw [← List.takeWhile_append_dropWhile (p := Char.isDigit) (l := rest), number_eq_ok_iff run stops] at read
  obtain ⟨-, numeral, rfl⟩ := read
  rwa [String.toList_ofList]

end ScriptShell.Lexer
