/-!
Character classes of program text. A text is a sequence of bytes: the character with code
point `n < 256` stands for the byte `n`. All classes are those of ASCII, so a byte of 128 or
more belongs to none of them.
-/
namespace ScriptShell.Ascii

/-- White space that does not end a line. -/
def isBlank (c : Char) : Bool :=
  c = ' ' || c = '\t' || c = '\x0b' || c = '\x0c' || c = '\r'

/-- White space that separates words, line ends included. -/
def isSpace (c : Char) : Bool :=
  isBlank c || c = '\n'

/-- A character that starts an identifier. -/
def isWordStart (c : Char) : Bool :=
  c.isAlpha || c = '_' || c = '$'

/-- A character that continues an identifier. -/
def isWord (c : Char) : Bool :=
  c.isAlphanum || c = '_' || c = '$'

/-- A character that may not follow a number without a separator. -/
def sticksToNumber (c : Char) : Bool :=
  c.isAlpha || c = '_'

/-- The text up to its first zero byte, which ends every string of a running program. -/
def untilNul (text : String) : String :=
  String.ofList (text.toList.takeWhile (· ≠ '\x00'))

/-- The characters of a text. Those of plain text are read off its bytes one by one, without looking at the
bytes around them. -/
def chars (text : String) : List Char :=
  let bytes := text.toByteArray.data.toList
  if bytes.all (· < 128) then bytes.map fun byte => Char.ofNat byte.toNat else text.toList

/-- A character whose bytes are plain is its byte. -/
theorem map_utf8EncodeChar {c : Char} (plain : ∀ byte ∈ String.utf8EncodeChar c, byte < 128) :
    (String.utf8EncodeChar c).map (fun byte => Char.ofNat byte.toNat) = [c] := by
  by_cases small : c.toNat ≤ 127
  · have size : c.utf8Size = 1 := Char.utf8Size_eq_one_iff.mpr (UInt32.le_iff_toNat_le.mpr small)
    have kept : c.val.toUInt8.toNat = c.toNat := by
      rw [UInt32.toNat_toUInt8]
      exact Nat.mod_eq_of_lt (by change c.toNat < 2 ^ 8; omega)
    rw [String.utf8EncodeChar_eq_singleton size, List.map_singleton, kept, Char.ofNat_toNat]
  · exfalso
    have leads : ∀ n, n < 256 → 128 ≤ n → ¬ UInt8.ofNat n < 128 := by
      intro n bound high low
      have less := UInt8.lt_iff_toNat_lt.mp low
      rw [UInt8.toNat_ofNat_of_lt' bound] at less
      exact absurd less (by simpa using high)
    have big : ¬ c.val.toNat ≤ 127 := small
    unfold String.utf8EncodeChar at plain
    simp only [if_neg big] at plain
    split at plain
    · exact leads _ (by omega) (by omega) (plain _ List.mem_cons_self)
    · split at plain <;> exact leads _ (by omega) (by omega) (plain _ List.mem_cons_self)

theorem chars_eq (text : String) : chars text = text.toList := by
  obtain ⟨cs, rfl⟩ : ∃ cs, text = String.ofList cs := ⟨text.toList, String.ofList_toList.symm⟩
  have bytes : (String.ofList cs).toByteArray.data.toList = cs.flatMap String.utf8EncodeChar := by
    simp [String.toByteArray_ofList, List.utf8Encode]
  unfold chars
  rw [bytes, String.toList_ofList]
  dsimp only
  split
  · rename_i plain
    rw [List.all_eq_true] at plain
    clear bytes
    induction cs with
    | nil => rfl
    | cons c cs ih =>
      simp only [List.flatMap_cons, List.map_append, List.mem_append] at plain ⊢
      rw [map_utf8EncodeChar fun byte own => of_decide_eq_true (plain byte (.inl own)),
        ih fun byte own => plain byte (.inr own)]
      rfl
  · rfl

end ScriptShell.Ascii
