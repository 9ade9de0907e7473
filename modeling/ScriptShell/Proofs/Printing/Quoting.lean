import ScriptShell.Machine.Primitive
import ScriptShell.Proofs.Printing.Lexing
import Mathlib.Algebra.Ring.Parity
import Mathlib.Data.List.DropRight

/-!
Shown texts. What a program shows for a text is a string literal of it: the lexer reads back one token, whose
value is the text. So texts that are shown alike are the same. A shown text stays on its line, and of its quotes
only the last one closes the literal.
-/
namespace ScriptShell

open Printer Lexer

/-- A text and a string literal of it. -/
structure Quotes (text shown : String) : Prop where
  /-- The literal is one token, and nothing stands behind it. -/
  read : tokenize shown = .ok [⟨.string, text, Position.start.span shown.length⟩,
    ⟨.endOfInput, "", (Position.start.advance shown.length).span 0⟩]
  plain : ∀ c ∈ shown.toList, c ≠ '\n' ∧ c ≠ '\t' ∧ c ≠ '\r'
  /-- Every quote but the outer ones is escaped: the backslashes right in front of it are odd in number. -/
  escaped : ∃ body, shown.toList = '"' :: (body ++ ['"']) ∧
    ∀ front back, body = front ++ '"' :: back → Odd (front.rtakeWhile (· = '\\')).length

theorem Quotes.unique {text other shown : String} (h : Quotes text shown) (k : Quotes other shown) :
    text = other := by
  have same := h.read.symm.trans k.read
  simpa using same

section Characters

theorem quoteChar_eq_escape : quoteChar = escape := by
  funext c
  unfold quoteChar escape
  split <;> simp_all

/-- What a character is written as: itself, or a backslash and another character. -/
theorem quoteChar_cases (c : Char) :
    (quoteChar c = [c] ∧ c ≠ '"' ∧ c ≠ '\\' ∧ c ≠ '\n' ∧ c ≠ '\t' ∧ c ≠ '\r') ∨
      ∃ d, quoteChar c = ['\\', d] ∧ d ≠ '\n' ∧ d ≠ '\t' ∧ d ≠ '\r' := by
  unfold quoteChar
  split <;> simp_all

theorem quoteChar_plain {c d : Char} (mem : d ∈ quoteChar c) : d ≠ '\n' ∧ d ≠ '\t' ∧ d ≠ '\r' := by
  rcases quoteChar_cases c with ⟨own, -, -, plain⟩ | ⟨other, own, plain⟩
  · rw [own, List.mem_singleton] at mem
    exact mem ▸ plain
  · rw [own] at mem
    simp only [List.mem_cons, List.not_mem_nil, or_false] at mem
    rcases mem with rfl | rfl
    · decide
    · exact plain

/-- The backslashes at the end of some quoted characters stand in pairs. -/
theorem trailing_even (text : List Char) :
    Even ((text.flatMap quoteChar).rtakeWhile (· = '\\')).length := by
  induction text using List.reverseRecOn with
  | nil => simp
  | append_singleton rest c ih =>
    rw [List.flatMap_append, List.flatMap_singleton]
    rcases quoteChar_cases c with ⟨own, -, plain, -⟩ | ⟨d, own, -⟩
    · simp [own, plain]
    · by_cases paired : d = '\\'
      · rw [own, paired, List.append_cons, List.rtakeWhile_concat_pos _ _ _ (by simp),
          List.rtakeWhile_concat_pos _ _ _ (by simp)]
        simpa [Nat.even_add_one] using ih
      · rw [own, List.append_cons, List.rtakeWhile_concat_neg _ _ _ (by simp [paired])]
        exact Even.zero

/-- A quote among quoted characters is the second half of one. -/
theorem quote_behind_backslash {text front back : List Char}
    (body : text.flatMap quoteChar = front ++ '"' :: back) :
    ∃ done : List Char, front = done.flatMap quoteChar ++ ['\\'] := by
  induction text generalizing front with
  | nil => simp at body
  | cons c rest ih =>
    rw [List.flatMap_cons] at body
    rcases quoteChar_cases c with ⟨own, quote, -⟩ | ⟨d, own, -⟩ <;> rw [own] at body
    · match front, body with
      | [], body => exact absurd (List.cons.inj body).1 quote
      | _ :: front, body =>
        obtain ⟨rfl, later⟩ := List.cons.inj body
        obtain ⟨done, rfl⟩ := ih later
        exact ⟨_ :: done, by rw [List.flatMap_cons, own]; rfl⟩
    · match front, body with
      | [], body => exact absurd (List.cons.inj body).1 (by decide)
      | [_], body =>
        obtain ⟨rfl, -⟩ := List.cons.inj body
        exact ⟨[], rfl⟩
      | _ :: _ :: front, body =>
        obtain ⟨rfl, behind⟩ := List.cons.inj body
        obtain ⟨rfl, later⟩ := List.cons.inj behind
        obtain ⟨done, rfl⟩ := ih later
        exact ⟨c :: done, by rw [List.flatMap_cons, own]; rfl⟩

end Characters

/-- A text that stands between quotes as it is written reads as one literal. -/
theorem tokenize_quoteText (text : String) : tokenize (quoteText text) =
    .ok [⟨.string, text, Position.start.span (quoteText text).length⟩,
      ⟨.endOfInput, "", (Position.start.advance (quoteText text).length).span 0⟩] := by
  have read : lexeme '"' (text.toList.flatMap escape ++ ['"']) =
      .ok ⟨.string, text, 1 + (text.toList.flatMap escape).length⟩ := by
    rw [lexeme, if_pos rfl, stringBody_escapes]
    simp only [String.ofList_toList]
  have length : (quoteText text).length = 1 + (text.toList.flatMap escape).length + 1 := by
    rw [quoteText, quoteChar_eq_escape, String.length_ofList]
    simp only [List.cons_append, List.length_cons, List.length_append, List.length_nil]
    omega
  have chars : (quoteText text).toList = '"' :: (text.toList.flatMap escape ++ ['"']) := by
    rw [quoteText, quoteChar_eq_escape, String.toList_ofList, List.cons_append]
  rw [tokenize_eq, chars, scan_lexeme _ _ (opens_quote _) read, length, Nat.add_comm 1,
    List.drop_eq_nil_of_le (by simp), scan]
  rfl

theorem quotes_quoteText (text : String) : Quotes text (quoteText text) where
  read := tokenize_quoteText text
  plain c mem := by
    rw [quoteText, String.toList_ofList] at mem
    simp only [List.cons_append, List.mem_cons, List.mem_append, List.mem_flatMap, List.not_mem_nil,
      or_false] at mem
    rcases mem with rfl | ⟨source, -, mem⟩ | rfl
    · decide
    · exact quoteChar_plain mem
    · decide
  escaped := by
    refine ⟨text.toList.flatMap quoteChar, by rw [quoteText, String.toList_ofList, List.cons_append], ?_⟩
    intro front back body
    obtain ⟨done, rfl⟩ := quote_behind_backslash body
    rw [List.rtakeWhile_concat_pos _ _ _ (by simp), List.length_append, List.length_singleton]
    exact (trailing_even done).add_one

/-- Showing a text always gives a literal of it, and literals of different texts differ. -/
theorem shown_text_reads_back :
    Function.Injective quoteText ∧ ∀ (machine : Machine) (value : Value), ∃ ref after,
      Machine.callPrimitive .showStr [value] machine = .ok (.text ref) after ∧
      ref.text = quoteText (machine.settle value).toText ∧
      Quotes (machine.settle value).toText ref.text := by
  constructor
  · intro text other same
    exact (quotes_quoteText text).unique (same ▸ quotes_quoteText other)
  · intro machine value
    have checked : ∃ noted, Machine.needText (machine.settle value) machine = .ok () noted := by
      unfold Machine.needText
      split <;> exact ⟨_, rfl⟩
    obtain ⟨noted, checked⟩ := checked
    have run : Machine.callPrimitive .showStr [value] machine =
        Machine.makeText (quoteText (machine.settle value).toText) noted := by
      show (Machine.needText (machine.settle value) >>= _) machine = _
      rw [Machine.run_bind, checked]
      rfl
    exact ⟨_, _, run, rfl, quotes_quoteText _⟩

end ScriptShell
