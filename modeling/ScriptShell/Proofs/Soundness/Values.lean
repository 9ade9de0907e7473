import ScriptShell.Machine.Evaluation
import ScriptShell.Symbol

/-! The values of each type. A number is any word, also where it is the address of something; a text is
a reference or the null text. Zero is a value of every type, so storage holds values of its type before
it is written. A value keeps its type while programs run: texts that have an address keep it. -/
namespace ScriptShell

/-- What running code without classes does to a machine: more texts have addresses. -/
structure Machine.Grows (m m' : Machine) : Prop where
  stored : m.stored.toList <+: m'.stored.toList
  objects : m'.objects = m.objects

/-- The values of a type, on a machine that knows the addresses of texts and objects. -/
def Value.HasType (m : Machine) : Ty → Value → Prop
  | .int, value => ∃ word, value = .word word ∨ value = m.valueAt word
  | .str, value => value = .zero ∨ ∃ ref, value = .text ref
  | .object _, value => value = .zero ∨ ∃ ref, value = .object ref
  | .unit, value | .space _, value | .error, value => value = .zero

namespace Machine

variable {m m' m'' : Machine}

theorem Grows.refl (m : Machine) : m.Grows m := ⟨List.prefix_rfl, rfl⟩

theorem Grows.trans (first : m.Grows m') (second : m'.Grows m'') : m.Grows m'' :=
  ⟨first.stored.trans second.stored, second.objects.trans first.objects⟩

theorem Grows.of_eq (stored : m'.stored = m.stored) (objects : m'.objects = m.objects) : m.Grows m' :=
  ⟨stored ▸ List.prefix_rfl, objects⟩

theorem Grows.textAt? (grows : m.Grows m') (found : m.textAt? distance = some ref) :
    m'.textAt? distance = some ref := by
  unfold Machine.textAt? at found ⊢
  simp only [Option.bind_eq_bind, Option.bind_eq_some_iff] at found ⊢
  obtain ⟨entry, listed, settled⟩ := found
  refine ⟨entry, ?_, settled⟩
  rw [← Array.getElem?_toList] at listed ⊢
  obtain ⟨more, longer⟩ := grows.stored
  rw [← longer]
  obtain ⟨inside, -⟩ := List.getElem?_eq_some_iff.mp listed
  rw [List.getElem?_append_left inside]
  exact listed

/-- A word that stands for something keeps standing for it. -/
theorem Grows.valueAt (grows : m.Grows m') (word : Int64) :
    m.valueAt word = .word word ∨ m.valueAt word = m'.valueAt word := by
  unfold Machine.valueAt Machine.objectAt?
  rw [grows.objects]
  split
  · exact .inl rfl
  split
  · cases found : m.textAt? (word - textBase).toNatClampNeg with
    | none => exact .inl rfl
    | some ref =>
      rw [grows.textAt? found]
      exact .inr rfl
  · exact .inr rfl

end Machine

namespace Value

variable {m m' : Machine} {value : Value} {type : Ty}

theorem HasType.mono (typed : value.HasType m type) (grows : m.Grows m') :
    value.HasType m' type := by
  cases type with
  | int =>
    obtain ⟨word, rfl | rfl⟩ := typed
    · exact ⟨word, .inl rfl⟩
    · obtain same | same := grows.valueAt word
      · exact ⟨word, .inl same⟩
      · exact ⟨word, .inr same⟩
  | str | unit | object _ | space _ | error => exact typed

theorem hasType_zero (m : Machine) (type : Ty) : Value.zero.HasType m type := by
  cases type with
  | int => exact ⟨0, .inl rfl⟩
  | str | object _ => exact .inl rfl
  | unit | space _ | error => rfl

theorem hasType_word (m : Machine) (word : Int64) : (Value.word word).HasType m .int :=
  ⟨word, .inl rfl⟩

theorem hasType_valueAt (m : Machine) (word : Int64) : (m.valueAt word).HasType m .int :=
  ⟨word, .inr rfl⟩

theorem hasType_text (m : Machine) (ref : TextRef) : (Value.text ref).HasType m .str :=
  .inr ⟨ref, rfl⟩

theorem hasType_ofBool (m : Machine) (flag : Bool) : (Value.ofBool flag).HasType m .int :=
  hasType_word m _

end Value

end ScriptShell
