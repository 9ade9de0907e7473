import ScriptShell.Proofs.Lexing.Numbers
import ScriptShell.Proofs.Printing.Printer

/-!
The canonical text of a unit is lexed into the tokens it was written from. A blank ends every
token but a newline, so that a token list is lexed token by token, and the newlines of a unit
stand behind other tokens and never next to one another.
-/
namespace ScriptShell

open Printer

/-- A name has the token of an identifier. -/
theorem IsName.glyph {text : String} (h : IsName text) :
    Lexer.wordGlyph text.toList = named text := by
  rw [Lexer.wordGlyph, String.ofList_toList, h.2]
  rfl

namespace Lexer

variable {breakable : Bool}

theorem digitsValue_toDigits (value : Nat) : digitsValue (Nat.toDigits 10 value) = value :=
  Nat.ofDigitChars_toDigits (by decide) (by decide)

/-- An integer in range has at most nineteen digits. -/
theorem number_toDigits {value : Nat} (range : value ≤ maxLiteral) {first : Char}
    {rest : List Char} (digits : Nat.toDigits 10 value = first :: rest) :
    sized (first :: rest) = .ok ⟨.number, toString value, rest.length⟩ := by
  have length : (Nat.toDigits 10 value).length ≤ 19 :=
    (Nat.length_toDigits_le_iff (by decide) (by decide)).mpr
      (Nat.lt_of_le_of_lt range (by decide))
  have own : decimal (Nat.toDigits 10 value) = value := by
    rw [← digitsValue_eq_decimal, digitsValue_toDigits]
  have inRange : outOfRange (Nat.toDigits 10 value) = false :=
    (outOfRange_eq_false_iff fun _ among => Nat.isDigit_of_mem_toDigits (by decide) (by decide) among).mpr
      ⟨length, own.trans_le range⟩
  rw [sized, ← digits, inRange, ← Nat.toString_eq_ofList_toDigits, digits]
  rfl

/-- A digit starts no word, literal, blank or comment. -/
theorem opens_of_digit {first : Char} (h : first.isDigit = true) (rest : List Char) :
    Opens first rest ∧ first ≠ '"' ∧ Ascii.isWordStart first = false := by
  have letter : Ascii.isWordStart first = false := by
    have plain : first ≠ '_' ∧ first ≠ '$' := by
      constructor <;> (rintro rfl; cases h)
    have code : first.isAlpha = false := by
      have letters : first.isAlpha = (decide (first.val ≥ 'A'.val ∧ first.val ≤ 'Z'.val) ||
        decide (first.val ≥ 'a'.val) && decide (first.val ≤ 'z'.val)) := rfl
      rw [letters]
      simp only [Char.isDigit, Bool.and_eq_true,
        Bool.or_eq_false_iff, Bool.and_eq_false_iff, decide_eq_true_eq, decide_eq_false_iff_not,
        ge_iff_le, UInt32.le_iff_toNat_le] at h ⊢
      have bounds : '0'.val.toNat = 48 ∧ '9'.val.toNat = 57 ∧ 'A'.val.toNat = 65 ∧
        'a'.val.toNat = 97 := by decide
      omega
    simp [Ascii.isWordStart, code, plain]
  refine ⟨⟨?_, ?_, ?_⟩, ?_, letter⟩
  · rintro rfl
    cases h
  · cases blank : Ascii.isBlank first with
    | false => rfl
    | true =>
      simp only [Ascii.isBlank, Bool.or_eq_true, decide_eq_true_eq] at blank
      rcases blank with (((rfl | rfl) | rfl) | rfl) | rfl <;> cases h
  · rintro ⟨rfl, -⟩
    cases h
  · rintro rfl
    cases h

theorem spells_number {value : Nat} (range : value ≤ maxLiteral) :
    Spells breakable ((toString value).toList ++ [' ']) [(.number, toString value)] true := by
  intro more
  have digits : ∀ c ∈ Nat.toDigits 10 value, c.isDigit = true := fun c mem =>
    Nat.isDigit_of_mem_toDigits (by decide) (by decide) mem
  cases shown : Nat.toDigits 10 value with
  | nil => exact absurd shown Nat.toDigits_ne_nil
  | cons first rest =>
    rw [shown] at digits
    obtain ⟨opens, quote, letter⟩ := opens_of_digit (digits _ List.mem_cons_self) (rest ++ ' ' :: more)
    have run : (rest ++ ' ' :: more).takeWhile Char.isDigit = rest := by
      rw [List.takeWhile_append_of_pos fun c mem => digits c (List.mem_cons_of_mem _ mem)]
      simp
    have left : (rest ++ ' ' :: more).dropWhile Char.isDigit = ' ' :: more := by
      rw [List.dropWhile_append_of_pos fun c mem => digits c (List.mem_cons_of_mem _ mem)]
      rfl
    have read : lexeme first (rest ++ ' ' :: more) =
        .ok ⟨.number, toString value, rest.length⟩ := by
      rw [lexeme, if_neg quote, if_neg (by simp [letter]), if_pos (digits _ List.mem_cons_self),
        number_free (by rw [left]; rintro c ⟨⟩; rfl), run,
        number_toDigits range shown]
    rw [Nat.toString_eq_ofList_toDigits, String.toList_ofList, shown, List.append_assoc,
      List.cons_append, List.singleton_append, spell_lexeme _ opens read, List.drop_left,
      spell_blank _ rfl, Nat.toString_eq_ofList_toDigits, shown]
    rfl

/-- A word in front of a blank. -/
theorem spells_word {word : List Char} (h : IsWord word) :
    Spells breakable (word ++ [' ']) [wordGlyph word] true := by
  intro more
  rw [List.append_assoc, spell_word h (by simp; rfl), List.singleton_append, spell_blank _ rfl]
  rfl

theorem spells_named {text : String} (h : IsName text) :
    Spells breakable (text.toList ++ [' ']) [named text] true :=
  h.glyph ▸ spells_word h.1

theorem spells_keyword (word : Keyword) :
    Spells breakable (word.text.toList ++ [' ']) [word.glyph] true := by
  have own : IsWord word.text.toList ∧ wordGlyph word.text.toList = word.glyph := by
    cases word <;> decide
  exact own.2 ▸ spells_word own.1

/-- A mark in front of a blank. -/
theorem spells_punct (mark : Punct) :
    Spells breakable (mark.text.toList ++ [' ']) [mark.glyph] true := by
  intro more
  have read : ∃ first body, mark.text.toList = first :: body ∧
      (first ≠ '\n' ∧ Ascii.isBlank first = false ∧
        ¬ (first = '/' ∧ (body ++ [' ']).head? = some '/')) ∧
      lexeme first (body ++ ' ' :: more) = .ok ⟨.punct mark, mark.text, body.length⟩ := by
    cases mark
    all_goals exact ⟨_, _, rfl, by decide, rfl⟩
  obtain ⟨first, body, shown, ⟨newline, blank, comment⟩, found⟩ := read
  have opens : Opens first (body ++ ' ' :: more) := ⟨newline, blank, by simpa using comment⟩
  rw [shown, List.append_assoc, List.cons_append, List.singleton_append, spell_lexeme _ opens found,
    List.drop_left, spell_blank _ rfl]
  rfl

/-- A character of a string literal. -/
theorem stringBody_escape_append (c : Char) (reach : Nat) (more : List Char) :
    stringBody reach (escape c ++ more) = (stringBody (reach + (escape c).length) more).map
      fun (value, length) => (c :: value, length) := by
  unfold escape
  split
  · next own => subst own; exact stringBody_escape rfl
  split
  · next own => subst own; exact stringBody_escape rfl
  split
  · next own => subst own; exact stringBody_escape rfl
  split
  · next own =>
    have kinds : c = '"' ∨ c = '\\' := by simpa using own
    rcases kinds with rfl | rfl <;> exact stringBody_escape rfl
  · next line _ _ own =>
    obtain ⟨quote, escape⟩ : c ≠ '"' ∧ c ≠ '\\' := by simpa using own
    exact stringBody_plain quote escape line

theorem stringBody_escapes (value more : List Char) (reach : Nat) :
    stringBody reach (value.flatMap escape ++ '"' :: more) =
      .ok (value, reach + (value.flatMap escape).length) := by
  induction value generalizing reach with
  | nil => simp [stringBody]
  | cons c rest ih =>
    rw [List.flatMap_cons, List.append_assoc, stringBody_escape_append, ih]
    simp only [Except.map, List.length_append]
    congr 2
    omega

theorem spells_string (value : String) :
    Spells breakable ('"' :: (value.toList.flatMap escape ++ ['"', ' '])) [(.string, value)]
      true := by
  intro more
  have read : lexeme '"' (value.toList.flatMap escape ++ '"' :: ' ' :: more) =
      .ok ⟨.string, value, 1 + (value.toList.flatMap escape).length⟩ := by
    rw [lexeme, if_pos rfl, stringBody_escapes]
    simp only [String.ofList_toList]
  rw [List.cons_append, List.append_assoc]
  show spell breakable ('"' :: (value.toList.flatMap escape ++ '"' :: ' ' :: more)) = _
  rw [spell_lexeme _ (opens_quote _) read, Nat.add_comm, ← List.drop_drop, List.drop_left,
    List.drop_one, List.tail_cons, spell_blank _ rfl]
  rfl

/-- The text of a token list is lexed into it, in any surroundings. -/
def Legible (glyphs : List Glyph) : Prop :=
  ∀ breakable, Spells breakable (Printer.text glyphs) glyphs true

/-- The text of a token list is lexed into it behind another token. -/
def Further (glyphs : List Glyph) : Prop := Spells true (Printer.text glyphs) glyphs true

/-- The text of some lines is lexed into them behind a line end. -/
def Lined (glyphs : List Glyph) : Prop := Spells false (Printer.text glyphs) glyphs false

variable {glyphs others : List Glyph}

theorem text_append (glyphs others : List Glyph) :
    Printer.text (glyphs ++ others) = Printer.text glyphs ++ Printer.text others :=
  List.flatMap_append

theorem text_cons (glyph : Glyph) (others : List Glyph) :
    Printer.text (glyph :: others) = spelling glyph ++ Printer.text others :=
  List.flatMap_cons

theorem text_line (others : List Glyph) :
    Printer.text (line :: others) = ['\n'] ++ Printer.text others := rfl

namespace Further

theorem nil : Further [] := Spells.nil true

theorem append (h : Further glyphs) (k : Further others) : Further (glyphs ++ others) := by
  rw [Further, text_append]
  exact Spells.append h k

end Further

namespace Legible

theorem further (h : Legible glyphs) : Further glyphs := h true

theorem append (h : Legible glyphs) (k : Further others) : Legible (glyphs ++ others) := by
  intro breakable
  rw [text_append]
  exact (h breakable).append k

theorem single {glyph : Glyph}
    (h : ∀ breakable, Spells breakable (spelling glyph) [glyph] true) : Legible [glyph] := by
  intro breakable
  have own : Printer.text [glyph] = spelling glyph := by simp [Printer.text]
  exact own ▸ h breakable

theorem mark (mark : Punct) (k : Further others) : Legible (mark.glyph :: others) :=
  (single fun _ => spells_punct mark).append k

theorem keyword (word : Keyword) (k : Further others) : Legible (word.glyph :: others) :=
  (single fun _ => spells_keyword word).append k

theorem named {text : String} (h : IsName text) (k : Further others) :
    Legible (Printer.named text :: others) :=
  (single fun _ => spells_named h).append k

theorem number {value : Nat} (range : value ≤ maxLiteral) :
    Legible [(.number, toString value)] :=
  single fun _ => spells_number range

theorem string (value : String) : Legible [(.string, value)] :=
  single fun _ => spells_string value

theorem grouped (h : Further glyphs) : Legible (Printer.grouped glyphs) :=
  mark .openParen (h.append (mark .closeParen .nil).further)

theorem flag (given : Bool) (word : Keyword) (k : Legible others) :
    Legible (Printer.flag given word ++ others) := by
  cases given with
  | true => exact keyword word k.further
  | false => exact k

/-- Lines between braces. -/
theorem braces (h : Lined glyphs) :
    Legible (Punct.openBrace.glyph :: line :: (glyphs ++ [Punct.closeBrace.glyph])) := by
  intro breakable
  rw [text_cons, text_line, text_append]
  have closing : Legible [Punct.closeBrace.glyph] := mark .closeBrace .nil
  exact (spells_punct .openBrace).append (spells_newline.append (h.append (closing false)))

end Legible

namespace Lined

theorem nil : Lined [] := Spells.nil false

theorem cons (h : Legible glyphs) (k : Lined others) : Lined (glyphs ++ line :: others) := by
  rw [Lined, text_append, text_line]
  exact (h false).append (spells_newline.append k)

end Lined

end Lexer

open Lexer

section Legible

theorem further_legible {rest : List String} (h : ∀ segment ∈ rest, IsName segment) :
    Further (further rest) := by
  induction rest with
  | nil => exact .nil
  | cons segment rest ih =>
    have own : Further (named segment :: further rest) :=
      (Legible.named (h segment List.mem_cons_self)
        (ih fun other mem => h other (List.mem_cons_of_mem _ mem))).further
    exact (Legible.mark .dot own).further

theorem listed_legible {phrases : List (List Glyph)} (h : ∀ phrase ∈ phrases, Legible phrase) :
    Further (listed phrases) := by
  induction phrases with
  | nil => exact .nil
  | cons phrase rest ih =>
    refine ((h phrase List.mem_cons_self).append ?_).further
    split
    · exact .nil
    · exact (Legible.mark .comma (ih fun other mem => h other (List.mem_cons_of_mem _ mem))).further

theorem TypeRef.Valid.legible {ref : TypeRef} (h : ref.Valid) : Legible ref.glyphs := by
  obtain ⟨some, names⟩ := h
  obtain ⟨first, rest, shown⟩ := List.exists_cons_of_ne_nil some
  rw [TypeRef.glyphs, shown]
  rw [shown] at names
  exact .named (names first List.mem_cons_self)
    (further_legible fun segment mem => names segment (List.mem_cons_of_mem _ mem))

theorem TypeRef.ascribed_legible {ref : Option TypeRef} (h : ∀ type ∈ ref, type.Valid) :
    Further (TypeRef.ascribed ref) := by
  cases ref with
  | none => exact .nil
  | some ref => exact (Legible.mark .colon (h ref rfl).legible.further).further

theorem ParamDecl.Valid.legible {param : ParamDecl} (h : param.Valid) : Legible param.glyphs :=
  .named h.1 (Legible.mark .colon h.2.legible.further).further

theorem ParamDecl.list_legible {params : List ParamDecl} (h : ∀ param ∈ params, param.Valid) :
    Legible (ParamDecl.list params) := by
  refine .grouped (listed_legible fun phrase mem => ?_)
  obtain ⟨param, own, rfl⟩ := List.mem_map.mp mem
  exact (h param own).legible

theorem Expr.IsPath.legible {target : Expr} (h : target.IsPath) : Legible target.pathGlyphs := by
  induction target using Expr.pathGlyphs.induct with
  | case1 span own => exact .named h .nil
  | case2 span object member ih =>
    exact (ih h.1).append (Legible.mark .dot (Legible.named h.2 .nil).further).further
  | case3 target name select =>
    cases target with
    | name span own => exact absurd rfl (name span own)
    | select span object member => exact absurd rfl (select span object member)
    | _ => exact h.elim

mutual

theorem Expr.Valid.legible : {e : Expr} → e.Valid → Legible e.glyphs
  | .int .., h => .number h
  | .str _ value, _ => .string value
  | .unit _, _ => .grouped .nil
  | .this _, _ => .keyword .kwThis .nil
  | .name .., h => .named h .nil
  | .select .., h =>
    (Legible.grouped h.1.legible.further).append
      (Legible.mark .dot (Legible.named h.2 .nil).further).further
  | .call .., h =>
    (Legible.grouped h.1.legible.further).append
      (Legible.grouped (Expr.ValidAll.legible h.2)).further
  | .new .., h =>
    .keyword .kwNew (h.1.legible.append
      (Legible.grouped (Expr.ValidAll.legible h.2)).further).further
  | .binary _ op .., h =>
    (Legible.grouped h.1.legible.further).append
      (Legible.mark op.mark (Legible.grouped h.2.legible.further).further).further
  | .unary _ op operand, h =>
    .mark op.mark (Legible.grouped (Expr.Valid.legible (e := operand) h).further).further
  | .cond _ _ _ none, h =>
    .grouped (Legible.keyword .kwIf
      ((Legible.grouped h.1.legible.further).append h.2.legible.further).further).further
  | .cond _ _ _ (some _), h =>
    .grouped (Legible.keyword .kwIf ((Legible.grouped h.1.legible.further).append
      (h.2.1.legible.append (Legible.keyword .kwElse h.2.2.legible.further).further).further
      ).further).further
  | .block .., h => .braces (Stmt.ValidAll.legible h)

theorem Expr.ValidAll.legible : {es : List Expr} → Expr.ValidAll es → Further (Expr.listGlyphs es)
  | [], _ => .nil
  | first :: rest, h => by
    refine (h.1.legible.append ?_).further
    split
    · exact .nil
    · exact (Legible.mark .comma (Expr.ValidAll.legible h.2)).further

theorem Stmt.Valid.legible : {statement : Stmt} → statement.Valid → Legible statement.glyphs
  | .val .., h =>
    .keyword .kwVal (Legible.named h.1 ((TypeRef.ascribed_legible h.2.1).append
      (Legible.mark .assign h.2.2.legible.further).further)).further
  | .expr _, h => Expr.Valid.legible h

theorem Stmt.ValidAll.legible :
    {statements : List Stmt} → Stmt.ValidAll statements → Lined (Stmt.linesGlyphs statements)
  | [], _ => .nil
  | _ :: _, h => .cons h.1.legible (Stmt.ValidAll.legible h.2)

end

theorem Import.Valid.items {decl : Import} (h : decl.Valid) :
    ∀ selector, some selector ∈ decl.items → IsPlain selector.name ∧ IsName selector.boundAs := by
  intro selector mem
  rcases List.mem_append.mp mem with own | wild
  · obtain ⟨_, given, same⟩ := List.mem_map.mp own
    cases same
    exact h.selectors selector given
  · split at wild <;> simp at wild

theorem Import.Valid.legible {decl : Import} (h : decl.Valid) : Legible decl.glyphs := by
  have all : Legible [named "_"] := .named (by decide) .nil
  have taken : Legible decl.taken := by
    unfold Import.taken
    split
    · exact all
    · refine .mark .openBrace (Further.append (listed_legible fun phrase mem => ?_)
        (Legible.mark .closeBrace .nil).further)
      obtain ⟨item, own, rfl⟩ := List.mem_map.mp mem
      cases item with
      | none => exact all
      | some selector =>
        obtain ⟨plain, bound⟩ := h.items selector own
        exact .named plain.1 (Legible.mark .arrow (Legible.named bound .nil).further).further
  have rest := further_legible fun segment mem => (h.tail segment mem).1
  exact .keyword .kwImport
    (Legible.named h.head.1 (rest.append (Legible.mark .dot taken.further).further)).further

theorem ValDecl.Valid.legible {decl : ValDecl} (h : decl.Valid) : Legible decl.glyphs :=
  .flag _ _ (.flag _ _ (.flag _ _ (.keyword .kwVal (Legible.named h.name
    ((TypeRef.ascribed_legible h.ascription).append
      (Legible.mark .assign h.init.legible.further).further)).further)))

theorem DefDecl.Valid.legible {decl : DefDecl} (h : decl.Valid) : Legible decl.glyphs := by
  have params : Further (if decl.parens then ParamDecl.list decl.params else []) := by
    split
    · exact (ParamDecl.list_legible h.params).further
    · exact .nil
  exact .flag _ _ (.keyword .kwDef (Legible.named h.name
    (params.append ((TypeRef.ascribed_legible h.result).append
      (Legible.mark .assign h.body.legible.further).further))).further)

theorem ForeignDecl.Valid.legible {decl : ForeignDecl} (h : decl.Valid) : Legible decl.glyphs :=
  .keyword .kwExtern (Legible.keyword .kwDef (Legible.named h.name
    ((ParamDecl.list_legible h.params).append
      (Legible.mark .colon h.result.legible.further).further).further).further).further

mutual

theorem Member.Valid.legible : {member : Member} → member.Valid → Legible member.glyphs
  | .imports _, h => Import.Valid.legible h
  | .val _, h => ValDecl.Valid.legible h
  | .func _, h => DefDecl.Valid.legible h
  | .foreign _, h => ForeignDecl.Valid.legible h
  | .container _, h => h.2.legible
  | .expr .., h => Expr.Valid.legible h

theorem Member.ValidAll.legible :
    {members : List Member} → Member.ValidAll members → Lined (Member.linesGlyphs members)
  | [], _ => .nil
  | _ :: _, h => .cons h.1.legible (Member.ValidAll.legible h.2)

theorem Container.Valid.legible : {decl : Container} → decl.Valid → Legible decl.glyphs
  | .mk _ kind _ _ params _, ⟨own, _, parameters, members⟩ => by
    have list : Further (if kind = .classKind then ParamDecl.list params else []) := by
      split
      · exact (ParamDecl.list_legible parameters).further
      · exact .nil
    exact (Legible.keyword kind.word (Legible.named own list).further).append
      (Legible.braces (Member.ValidAll.legible members)).further

end

theorem lined_legible {phrases : List (List Glyph)} (h : ∀ phrase ∈ phrases, Legible phrase) :
    Lined (lined phrases) := by
  induction phrases with
  | nil => exact .nil
  | cons phrase rest ih =>
    rw [lined, List.flatMap_cons, List.append_assoc]
    exact .cons (h phrase List.mem_cons_self)
      (ih fun other mem => h other (List.mem_cons_of_mem _ mem))

theorem Container.Valid.topLegible {decl : Container} (h : decl.Valid) :
    Legible decl.topGlyphs :=
  .flag _ _ h.legible

/-- The canonical text of a unit has the tokens it was written from. -/
theorem Program.Valid.lexes {program : Program} (h : program.Valid) :
    ∃ tokens, tokenize program.text = .ok tokens ∧
      tokens.map Token.glyph = program.glyphs ++ [(.endOfInput, "")] := by
  have lines : Lined program.glyphs := by
    refine lined_legible fun phrase mem => ?_
    rcases List.mem_append.mp mem with own | own
    · obtain ⟨decl, given, rfl⟩ := List.mem_map.mp own
      exact (h.imports decl given).legible
    · obtain ⟨decl, given, rfl⟩ := List.mem_map.mp own
      exact (h.items decl given).topLegible
  have spells := lines []
  rw [List.append_nil, spell_nil] at spells
  have own : Lexer.glyphs (tokenize program.text) = some (program.glyphs ++ [(.endOfInput, "")]) := by
    rw [← Option.map_some, ← spells, spell, tokenize_eq, Program.text, String.toList_ofList]
  cases read : tokenize program.text with
  | error error => rw [read] at own; cases own
  | ok tokens =>
    rw [read] at own
    exact ⟨tokens, rfl, Option.some.inj own⟩

end Legible

end ScriptShell
