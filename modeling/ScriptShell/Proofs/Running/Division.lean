import Mathlib.Data.Int.ModEq
import ScriptShell.Proofs.Running.Steps

/-!
Division of words. Inside its domain the division of words is exact. Outside of it nothing is divided: a zero
divisor raises a fault, and where the quotient is no word the results are known. So there is a quotient and a
remainder for every divisor but zero, and the two fit together.
-/
namespace ScriptShell.Machine

variable {left right : Int64}

theorem toInt_quotient (domain : Divisible left right) :
    (quotient left right domain).toInt = left.toInt.tdiv right.toInt := by
  obtain ⟨_, wraps⟩ := domain
  obtain other | other := not_and_or.mp wraps
  · exact Int64.toInt_div_of_ne_left _ _ other
  · exact Int64.toInt_div_of_ne_right _ _ other

theorem toInt_modulus (domain : Divisible left right) :
    (modulus left right domain).toInt = left.toInt.tmod right.toInt :=
  Int64.toInt_mod left right

/-- The domain of the division of words is where the exact quotient is a word. -/
theorem divisible_iff : Divisible left right ↔
    right ≠ 0 ∧ -2 ^ 63 ≤ left.toInt.tdiv right.toInt ∧ left.toInt.tdiv right.toInt < 2 ^ 63 := by
  constructor
  · intro domain
    rw [← toInt_quotient domain]
    exact ⟨domain.1, (quotient left right domain).le_toInt, (quotient left right domain).toInt_lt⟩
  · rintro ⟨nonzero, _, below⟩
    refine ⟨nonzero, ?_⟩
    rintro ⟨rfl, rfl⟩
    exact absurd below (by decide)

/-- A quotient and a remainder of words. They fit together where words wrap around, the remainder is smaller
than the divisor and has the sign of the dividend, and the quotient is rounded toward zero or, where that is
no word, wraps around. -/
structure Divides (left right quotient remainder : Int64) : Prop where
  whole : quotient.toInt * right.toInt + remainder.toInt ≡ left.toInt [ZMOD 2 ^ 64]
  smaller : remainder.toInt.natAbs < right.toInt.natAbs
  sign : remainder = 0 ∨ remainder.toInt.sign = left.toInt.sign
  rounded : ¬(left = Int64.minValue ∧ right = -1) → quotient.toInt = left.toInt.tdiv right.toInt
  wrapped : left = Int64.minValue ∧ right = -1 → quotient.toInt = -2 ^ 63

theorem divides_quotient (domain : Divisible left right) :
    Divides left right (quotient left right domain) (modulus left right domain) := by
  have exact := toInt_quotient domain
  have rest := toInt_modulus domain
  constructor
  case whole =>
    rw [exact, rest, Int.tdiv_mul_add_tmod]
  case smaller =>
    have nonzero : right.toInt.natAbs ≠ 0 := fun zero =>
      domain.1 (Int64.toInt_inj.mp (Int.natAbs_eq_zero.mp zero))
    rw [rest, Int.natAbs_tmod]
    exact Nat.mod_lt _ (Nat.pos_of_ne_zero nonzero)
  case sign =>
    by_cases divides : right.toInt ∣ left.toInt
    · left
      exact Int64.toInt_inj.mp (rest.trans (Int.tmod_eq_zero_of_dvd divides))
    · right
      rw [rest, Int.sign_tmod, if_neg divides]
  case rounded => exact fun _ => exact
  case wrapped => exact fun outside => absurd outside domain.2

/-- Nothing is left where the divisor is minus one. -/
theorem modulus_minusOne (domain : Divisible left (-1)) : modulus left (-1) domain = 0 := by
  refine Int64.toInt_inj.mp ((toInt_modulus domain).trans ?_)
  exact Int.tmod_eq_zero_of_dvd (Int.neg_dvd.mpr (one_dvd _))

theorem divides_minValue : Divides Int64.minValue (-1) Int64.minValue 0 :=
  ⟨by decide, by decide, .inl rfl, fun outside => absurd ⟨rfl, rfl⟩ outside, fun _ => by decide⟩

/-- For every divisor but zero there is a quotient and a remainder. -/
theorem divide_remainder (left : Int64) (nonzero : right ≠ 0) : ∃ q r,
    divide left right = pure q ∧ remainder left right = pure r ∧ Divides left right q r := by
  by_cases wraps : left = Int64.minValue ∧ right = -1
  · obtain ⟨rfl, rfl⟩ := wraps
    exact ⟨_, _, rfl, rfl, divides_minValue⟩
  have domain : Divisible left right := ⟨nonzero, wraps⟩
  refine ⟨quotient left right domain, modulus left right domain, ?_, ?_, divides_quotient domain⟩
  · rw [divide, dif_neg nonzero, dif_neg wraps]
  · rw [remainder, dif_neg nonzero]
    split
    next minusOne =>
      subst minusOne
      rw [modulus_minusOne]
    next => rfl

/-- The machine with further calls active. -/
def within (m : Machine) (calls : List (Option String)) : Machine :=
  { m with context := { m.context with frames := m.context.frames ++ calls.toArray } }

/-- A fault that is raised under a guard is taken over by it, and takes all calls down that were made since. -/
theorem unwindGuard_halted (m : Machine) (calls : List (Option String)) (fault : Fault) :
    ((m.openGuard.within calls).halted fault).unwindGuard =
      { m with context := { m.context with pending := none } } := by
  simp [openGuard, within, halted, unwindGuard, Context.pushTrap, Context.push, Context.unwind, Context.depth,
    Context.pop]

/-- Division and remainder are total but for a zero divisor. They give words that fit together and leave the
machine as it is, and the division of words that they are made with is exact. By zero both raise a fault and
change nothing else; a guard that takes the fault over leaves the machine as it was when the guard was opened,
whatever calls were made in between. -/
theorem division_total (m : Machine) (left right : Int64) :
    (right ≠ 0 → ∃ q r, callPrimitive .div [.word left, .word right] m = .ok (.word q) m ∧
      callPrimitive .mod [.word left, .word right] m = .ok (.word r) m ∧ Divides left right q r) ∧
    (∀ domain : Divisible left right,
      (quotient left right domain).toInt = left.toInt.tdiv right.toInt ∧
        (modulus left right domain).toInt = left.toInt.tmod right.toInt) ∧
    (right = 0 →
      let fault : Fault := ⟨⟨.arithmeticError, "/ by zero", m.context.snapshot⟩, []⟩
      let raised := { m with context := { m.context with pending := some fault } }
      callPrimitive .div [.word left, .word right] m = .error fault raised ∧
      callPrimitive .mod [.word left, .word right] m = .error fault raised ∧
      raised.context.caught = fault ∧
      ∀ (host : Machine) (calls : List (Option String)), m = host.openGuard.within calls →
        raised.unwindGuard = { host with context := { host.context with pending := none } }) := by
  refine ⟨fun nonzero => ?_, fun domain => ⟨toInt_quotient domain, toInt_modulus domain⟩, ?_⟩
  · obtain ⟨q, r, divided, modulo, fits⟩ := divide_remainder left nonzero
    refine ⟨q, r, ?_, ?_, fits⟩
    · show (divide left right >>= fun q => pure (.word q) : Run Value) m = _
      rw [divided]
      rfl
    · show (remainder left right >>= fun r => pure (.word r) : Run Value) m = _
      rw [modulo]
      rfl
  · rintro rfl
    refine ⟨rfl, rfl, rfl, ?_⟩
    rintro host calls rfl
    exact unwindGuard_halted host calls _

/-- The quotient that is no word wraps around, and nothing is left. -/
theorem division_total_minValue : ∃ q r,
    callPrimitive .div [.word Int64.minValue, .word (-1)] {} = .ok (.word q) {} ∧
      callPrimitive .mod [.word Int64.minValue, .word (-1)] {} = .ok (.word r) {} ∧
      Divides Int64.minValue (-1) q r :=
  (division_total {} Int64.minValue (-1)).1 (by decide)

end ScriptShell.Machine
