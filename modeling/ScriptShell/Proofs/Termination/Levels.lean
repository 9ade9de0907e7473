import ScriptShell.Proofs.Running.Steps

/-! Runs that stay on their level. Code that calls neither of the functions that keep the frames leaves as
many active calls behind as it found, unless it ends in a fault. So the calls of one piece of code are all
made at one depth, and what it does depends on nothing but what its calls do at that depth. Where these have
room, so has the code. -/
namespace ScriptShell.Machine

variable {depth : Nat} {x y : Run α}

/-- Two runs do the same wherever as many calls are active. They leave as many unless they end in a fault, and do
not run out of room. -/
def Level (depth : Nat) (x y : Run α) : Prop :=
  ∀ m : Machine, m.context.depth = depth →
    x m = y m ∧ (∀ value m', x m = .ok value m' → m'.context.depth = depth) ∧
      ((left (x m)).astray = some .stack → m.astray = some .stack)

theorem Level.bind {f g : α → Run β} (first : Level depth x y)
    (rest : ∀ value, Level depth (f value) (g value)) : Level depth (x >>= f) (y >>= g) := by
  intro m same
  obtain ⟨equal, kept, room⟩ := first m same
  rw [run_bind, run_bind, ← equal]
  cases result : x m with
  | error fault after =>
    rw [result] at room
    exact ⟨rfl, by rintro _ _ ⟨⟩, room⟩
  | ok value after =>
    rw [result] at room
    obtain ⟨equal', kept', room'⟩ := rest value after (kept value after result)
    exact ⟨equal', kept', fun out => room (room' out)⟩

/-- Calls of the given symbols stay on their level and do the same through two callers. -/
def CallsLevel (depth : Nat) (call other : Caller) (symbols : List String) : Prop :=
  ∀ symbol ∈ symbols, ∀ args, Level depth (call symbol args) (other symbol args)

variable {call other : Caller}

theorem CallsLevel.left {first rest : List String} (calls : CallsLevel depth call other (first ++ rest)) :
    CallsLevel depth call other first :=
  fun symbol listed => calls symbol (List.mem_append_left _ listed)

theorem CallsLevel.right {first rest : List String} (calls : CallsLevel depth call other (first ++ rest)) :
    CallsLevel depth call other rest :=
  fun symbol listed => calls symbol (List.mem_append_right _ listed)

end ScriptShell.Machine
