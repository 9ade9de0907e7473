import ScriptShell.Proofs.Order.Visits
import ScriptShell.Proofs.Typing.Fuel

/-! Steps that both checks take. Between such steps no member is being checked, and the two checks know the
same members and the same imports; each may have been the one that went ahead, so a step is followed both
ways. -/
namespace ScriptShell

open Checking Typing

namespace Check

variable {σ α β : Type} {s s' : Checking σ} {x : Check σ α}

/-- A step forgets no body that was kept before. -/
def Growing (x : Check σ α) : Prop := ∀ kept, Check.Keeps (fun s => kept ⊆ s.bodies) x

theorem Growing.subset (grows : Growing x) (run : x s = .ok a s') : s.bodies ⊆ s'.bodies := by
  have kept := (grows s.bodies s (List.Subset.refl _)).2
  rw [run] at kept
  exact kept

theorem Growing.pure (a : α) : Growing (Pure.pure a : Check σ α) := fun _ => agree_pure a

theorem Growing.bind {f : α → Check σ β} (first : Growing x) (second : ∀ a, Growing (f a)) :
    Growing (x >>= f) := fun kept => agree_bind (first kept) fun a => second a kept

end Check

namespace Checking

variable {σ : Type} {s t : Checking σ}

/-- No member is being checked. -/
def Idle (s : Checking σ) : Prop :=
  ∀ key own, s.progress.lookup key = some own → own = ⟨.pending, false⟩ ∨ own = ⟨.done, true⟩

/-- Two checks know the same. -/
structure Level (s t : Checking σ) : Prop where
  alike : s.symbols.Alike t.symbols
  params : ∀ id, (t.symbols.get id).params = (s.symbols.get id).params
  listed : ∀ key, t.progress.lookup key = none ↔ s.progress.lookup key = none
  typed : ∀ key, t.Typed key ↔ s.Typed key
  agree : ∀ key, s.Typed key → ∀ own twin, s.symbols.member? key = some own →
    t.symbols.member? key = some twin → twin.type = own.type ∧ twin.params = own.params
  cached : ∀ key, t.paths.lookup key = none ↔ s.paths.lookup key = none
  paths : ∀ key path own, (key, path) ∈ t.paths → (key, own) ∈ s.paths → path.type = own.type

theorem Level.symm (level : Level s t) : Level t s where
  alike := level.alike.symm
  params id := (level.params id).symm
  listed key := (level.listed key).symm
  typed key := (level.typed key).symm
  agree key known own twin found present := by
    have same := level.agree key ((level.typed key).mp known) twin own present found
    exact ⟨same.1.symm, same.2.symm⟩
  cached key := (level.cached key).symm
  paths key path own listed present := (level.paths key own path present listed).symm

theorem idle_cases (idle : s.Idle) (listed : s.progress.lookup key ≠ none) :
    s.progress.lookup key = some ⟨.pending, false⟩ ∧ ¬ s.Typed key ∨
      s.progress.lookup key = some ⟨.done, true⟩ ∧ s.Typed key := by
  obtain ⟨own, found⟩ := Option.ne_none_iff_exists'.mp listed
  rcases idle key own found with rfl | rfl
  · exact .inl ⟨found, not_typed_of_checking found⟩
  · refine .inr ⟨found, fun own present => ?_⟩
    rw [found, Option.some.injEq] at present
    exact present ▸ ⟨rfl, by simp⟩

end Checking

namespace Window

variable {σ α β : Type} {w : Window σ} {n : Nat} {s t s' t' : Checking σ} {key : MemberKey}

/-- Between members, a step of a check leaves none in the middle of its check. -/
theorem Moves.idle (moves : w.Moves n s s') (idle : s.Idle) : s'.Idle := by
  intro key own found
  have listed : s.progress.lookup key ≠ none := by
    rw [Ne, ← listed_iff moves.leads.still.keys key, found]
    simp
  rcases idle_cases idle listed with ⟨waiting, -⟩ | ⟨done, -⟩
  · rcases moves.records.members key waiting with still | ⟨done, -⟩
    · exact .inl (Option.some.inj (found.symm.trans still))
    · exact .inr (Option.some.inj (found.symm.trans done))
  · have kept := moves.advances.grows.begun key _ (by simp) done (by simp)
    exact .inr (Option.some.inj (found.symm.trans kept))

/-- Both checks stand between two steps, and know the same. The shapes are those of the start. -/
structure Abreast (w : Window σ) (s t : Checking σ) : Prop where
  shape : s.symbols.shape = w.first.symbols.shape
  ready : s.Consistent w.env w.room
  readyToo : t.Consistent w.other w.room
  idle : s.Idle
  idleToo : t.Idle
  level : Level s t

theorem Abreast.ending (abreast : w.Abreast s t) (last : Checking σ) : (w.ending last).Abreast s t :=
  ⟨abreast.shape, abreast.ready, abreast.readyToo, abreast.idle, abreast.idleToo, abreast.level⟩

/-- Two steps that keep the checks abreast, unless the second one is refused as untimely. -/
def Keeps (w : Window σ) (x : Check σ α) (y : Check σ β) (related : α → β → Prop) : Prop :=
  ∀ s t a s', w.Abreast s t → x s = .ok a s' → s'.bodies ⊆ w.last.bodies →
    w.Lands (fun b t' => w.Abreast s' t' ∧ related a b) (y t)

theorem Keeps.pure {related : α → β → Prop} {a : α} {b : β} (holds : related a b) :
    w.Keeps (pure a) (pure b) related := by
  intro s t a' s' abreast run _
  obtain ⟨rfl, rfl⟩ := Check.pure_ok.mp run
  exact ⟨abreast, holds⟩

theorem Keeps.bind {γ δ : Type} {x : Check σ α} {y : Check σ β} {f : α → Check σ γ} {g : β → Check σ δ}
    {related : α → β → Prop} {further : γ → δ → Prop} (first : w.Keeps x y related)
    (grows : ∀ a, Check.Growing (f a)) (second : ∀ a b, related a b → w.Keeps (f a) (g b) further) :
    w.Keeps (x >>= f) (y >>= g) further := by
  intro s t c s' abreast run kept
  obtain ⟨a, between, ran, run⟩ := Check.bind_ok.mp run
  refine Lands.bind (first s t a between abreast ran (List.Subset.trans ((grows a).subset run) kept)) ?_
  rintro b v - ⟨later, holds⟩
  exact second a b holds between v c s' later run kept

end Window

end ScriptShell
