import ScriptShell.Fragment

/-!
Brackets and statements. A token list is balanced when every bracket of it is closed in it. The
statements that a balanced fragment splits into are balanced, and a separator that stands outside
their brackets follows a token that asks for more, or precedes `else` or `.`.
-/
namespace ScriptShell

theorem TokenKind.ne_newline {kind : TokenKind} (h : kind.isSeparator = false) :
    kind ≠ .newline := by
  rintro rfl
  cases h

namespace Fragment

/-- Further open brackets stay where they are. -/
theorem brackets_weaken {opened left : List TokenKind} (outer : List TokenKind)
    {tokens : List Token} (h : brackets opened tokens = .ok left) :
    brackets (opened ++ outer) tokens = .ok (left ++ outer) := by
  induction tokens generalizing opened with
  | nil => cases h; rfl
  | cons token rest ih =>
    simp only [brackets] at h ⊢
    split at h
    · next opener => rw [if_pos opener]; exact ih h
    · next opener =>
      rw [if_neg opener]
      cases closes : token.kind.opener? with
      | none => rw [closes] at h; exact ih h
      | some closed =>
        rw [closes] at h
        cases opened with
        | nil => cases h
        | cons innermost rest =>
          simp only [List.cons_append] at h ⊢
          split at h
          · next same => rw [if_pos same]; exact ih h
          · cases h

/-- A separator is no bracket. -/
theorem brackets_separator {opened : List TokenKind} {token : Token} {rest : List Token}
    (h : token.kind.isSeparator = true) : brackets opened (token :: rest) = brackets opened rest := by
  have kinds : token.kind = .newline ∨ token.kind = .punct .semicolon := by
    simpa [TokenKind.isSeparator] using h
  rcases kinds with kind | kind <;>
    simp [brackets, kind, TokenKind.isOpener, Punct.isOpener, TokenKind.opener?, Punct.opener?]

end Fragment

open Fragment

/-- Every bracket of a token list is closed in it. -/
def Balanced (tokens : List Token) : Prop := brackets [] tokens = .ok []

namespace Balanced

theorem brackets {tokens : List Token} (h : Balanced tokens) (opened : List TokenKind) :
    Fragment.brackets opened tokens = .ok opened :=
  brackets_weaken opened h

theorem nil : Balanced [] := rfl

theorem append {front back : List Token} (h : Balanced front) (k : Balanced back) :
    Balanced (front ++ back) := by
  rw [Balanced, brackets_append, h]
  exact k

theorem back {front back : List Token} (h : Balanced front) (k : Balanced (front ++ back)) :
    Balanced back := by
  rw [Balanced, brackets_append, h] at k
  exact k

/-- A token that is no bracket. -/
theorem plain {token : Token} (opens : token.kind.isOpener = false)
    (closes : token.kind.opener? = none) : Balanced [token] := by
  simp [Balanced, Fragment.brackets, opens, closes]

theorem separators {tokens : List Token} (h : ∀ token ∈ tokens, token.kind.isSeparator = true) :
    Balanced tokens := by
  induction tokens with
  | nil => exact nil
  | cons token rest ih =>
    rw [Balanced, brackets_separator (h token (by simp))]
    exact ih fun other mem => h other (by simp [mem])

theorem newlines {tokens : List Token} (h : ∀ token ∈ tokens, token.kind = .newline) :
    Balanced tokens :=
  separators fun token mem => by simp [TokenKind.isSeparator, h token mem]

/-- What stands before a point inside a balanced list leaves brackets open. -/
theorem front {front back : List Token} (h : Balanced (front ++ back)) :
    ∃ opened, Fragment.brackets [] front = .ok opened := by
  rw [Balanced, brackets_append] at h
  cases k : Fragment.brackets [] front with
  | error token => rw [k] at h; cases h
  | ok opened => exact ⟨opened, rfl⟩

/-- Balanced tokens between a bracket and its counterpart. -/
theorem group {opening closing : Token} {inner : List Token} (h : Balanced inner)
    (opens : opening.kind.isOpener = true) (plain : closing.kind.isOpener = false)
    (closes : closing.kind.opener? = some opening.kind) :
    Balanced (opening :: (inner ++ [closing])) := by
  simp only [Balanced, Fragment.brackets, opens, if_true, brackets_append, h.brackets]
  simp [Except.bind, plain, closes]

/-- Between a bracket and its counterpart no front part is balanced. -/
theorem group_front {opening : Token} {inner front back : List Token} (h : Balanced inner)
    (opens : opening.kind.isOpener = true) (split : inner = front ++ back) :
    ¬ Balanced (opening :: front) := by
  intro balanced
  obtain ⟨opened, left⟩ := Balanced.front (split ▸ h)
  have weak := brackets_weaken [opening.kind] left
  simp only [Balanced, Fragment.brackets, opens, if_true] at balanced
  rw [List.nil_append, balanced] at weak
  cases opened <;> cases weak

/-- A closing bracket behind balanced tokens closes nothing of them. -/
theorem not_closing {closing : Token} {front back : List Token} {opener : TokenKind}
    (h : Balanced front) (plain : closing.kind.isOpener = false)
    (closes : closing.kind.opener? = some opener) : ¬ Balanced (front ++ closing :: back) := by
  intro balanced
  have := h.back balanced
  simp [Balanced, Fragment.brackets, plain, closes] at this

end Balanced

/-- Words that start a definition or an import, modifiers included. -/
def TokenKind.opensStatement (kind : TokenKind) : Bool := isModifier kind || startsDefinition kind

/-- Every separator outside the brackets of a token list is bridged: the token before it asks for
more, or `else` or `.` comes next. -/
def Bridged (tokens : List Token) : Prop :=
  ∀ front mark back, tokens = front ++ mark :: back → mark.kind.isSeparator = true →
    Balanced front → (∃ last ∈ front.getLast?, last.kind.continues = true) ∨ resumes back = true

/-- The tokens of one statement of a body. -/
structure Statement (tokens : List Token) : Prop where
  solid : ∀ token ∈ tokens, token.kind ≠ .endOfInput
  balanced : Balanced tokens
  opens : ∃ first ∈ tokens.head?, first.kind.opensStatement = true
  bridged : Bridged tokens

namespace Fragment

theorem resumes_append (front back : List Token) :
    resumes (front ++ back) =
      if front.all (·.kind = .newline) then resumes back else resumes front := by
  induction front with
  | nil => rfl
  | cons token rest ih =>
    by_cases newline : token.kind = .newline
    · simpa [resumes, newline] using ih
    · simp [resumes, newline]

/-- One token leaves the brackets open that its depth counts. -/
theorem brackets_cons {opened : List TokenKind} {token : Token} {rest : List Token}
    (h : brackets opened (token :: rest) = .ok []) :
    ∃ after, brackets opened [token] = .ok after ∧ brackets after rest = .ok [] ∧
      depthAfter opened.length token.kind = after.length := by
  rw [← List.singleton_append, brackets_append] at h
  cases k : brackets opened [token] with
  | error token => rw [k] at h; cases h
  | ok after =>
    rw [k] at h
    refine ⟨after, rfl, h, ?_⟩
    simp only [brackets] at k
    unfold depthAfter
    split at k
    · next opens => cases k; simp [opens]
    · next opens =>
      rw [if_neg opens]
      cases closes : token.kind.opener? with
      | none => rw [closes] at k; cases k; simp
      | some opener =>
        rw [closes] at k
        cases opened with
        | nil => cases k
        | cons innermost outer =>
          simp only at k
          split at k
          · cases k; simp
          · cases k

/-- A statement as the splitter cuts it out. -/
structure Part (tokens : List Token) : Prop where
  balanced : Balanced tokens
  head : ∃ first ∈ tokens.head?, first.kind.isSeparator = false
  bridged : Bridged tokens

/-- What is known of the tokens read since the last cut, in front of those still to come: the
separators among them are bridged, and the first one is none. -/
structure Growing (current rest : List Token) : Prop where
  head : ∀ first ∈ current.head?, first.kind.isSeparator = false
  bridged : ∀ front mark back, current = front ++ mark :: back → mark.kind.isSeparator = true →
    Balanced front →
    (∃ last ∈ front.getLast?, last.kind.continues = true) ∨ resumes (back ++ rest) = true

theorem Growing.nil (rest : List Token) : Growing [] rest where
  head := by simp
  bridged := by simp

/-- Another token is read. Outside all brackets it is no separator, or a bridged one. -/
theorem Growing.snoc {current rest : List Token} {token : Token}
    (h : Growing current (token :: rest))
    (first : current = [] → token.kind.isSeparator = false)
    (own : token.kind.isSeparator = true → Balanced current →
      (∃ last ∈ current.getLast?, last.kind.continues = true) ∨ resumes rest = true) :
    Growing (current ++ [token]) rest where
  head := by
    cases current with
    | nil => simpa using first rfl
    | cons other others => simpa using h.head
  bridged := by
    intro front mark back split separates balanced
    rcases List.append_eq_append_iff.mp split with ⟨more, rfl, tail⟩ | ⟨more, rfl, tail⟩
    · cases more with
      | nil =>
        obtain ⟨rfl, rfl⟩ : token = mark ∧ [] = back := by simpa using tail
        simpa using own separates (by simpa using balanced)
      | cons other others => simp at tail
    · cases more with
      | nil =>
        obtain ⟨rfl, rfl⟩ : mark = token ∧ back = [] := by simpa using tail
        simpa using own separates (by simpa using balanced)
      | cons other others =>
        obtain ⟨rfl, rfl⟩ : mark = other ∧ back = others ++ [token] := by simpa using tail
        simpa using h.bridged front mark others rfl separates balanced

/-- At a cut the tokens read since the last one are a statement. -/
theorem Growing.part {current rest : List Token} (h : Growing current rest)
    (balanced : Balanced current) (some : current ≠ []) (stops : resumes rest = false) :
    Part current where
  balanced := balanced
  head := by
    obtain ⟨first, others, rfl⟩ := List.exists_cons_of_ne_nil some
    exact ⟨first, rfl, h.head first rfl⟩
  bridged := by
    intro front mark back split separates before
    rcases h.bridged front mark back split separates before with more | more
    · exact .inl more
    · rw [resumes_append] at more
      split at more
      · rw [stops] at more; cases more
      · exact .inr more

theorem splitFrom_parts (current : List Token) {rest : List Token} {opened : List TokenKind}
    (growing : Growing current.reverse rest)
    (before : brackets [] current.reverse = .ok opened) (after : brackets opened rest = .ok []) :
    ∀ part ∈ splitFrom current opened.length rest,
      Part part ∧ part <:+: current.reverse ++ rest := by
  induction rest generalizing current opened with
  | nil =>
    intro part mem
    cases after
    unfold splitFrom at mem
    split at mem
    · cases mem
    · next some =>
      obtain rfl : part = current.reverse := by simpa using mem
      exact ⟨growing.part before (by simpa using some) rfl, by simp⟩
  | cons token rest ih =>
    intro part mem
    unfold splitFrom at mem
    split at mem
    · next cut =>
      obtain ⟨outside, separates⟩ : opened = [] ∧ token.kind.isSeparator = true := by
        simpa using cut
      subst outside
      rw [brackets_separator separates] at after
      cases current with
      | nil =>
        obtain ⟨own, place⟩ := ih [] (.nil rest) rfl after part mem
        exact ⟨own, place.trans (List.suffix_cons token rest).isInfix⟩
      | cons last others =>
        simp only at mem
        split at mem
        · next goes =>
          -- the separator is bridged, and the statement goes on behind it
          have more := (Bool.and_eq_true _ _ ▸ goes).2
          have grown : Growing (token :: last :: others).reverse rest := by
            rw [List.reverse_cons]
            refine growing.snoc (by simp) fun _ _ => ?_
            simpa using more
          have balanced : brackets [] (token :: last :: others).reverse = .ok [] := by
            rw [List.reverse_cons, brackets_append, before]
            exact brackets_separator separates
          obtain ⟨own, place⟩ := ih _ grown balanced after part mem
          exact ⟨own, by simpa using place⟩
        · next stops =>
          rcases List.mem_cons.mp mem with rfl | later
          · refine ⟨growing.part before (by simp) ?_, (List.prefix_append _ _).isInfix⟩
            have kinds : token.kind = .newline ∨ token.kind = .punct .semicolon := by
              simpa [TokenKind.isSeparator] using separates
            rcases kinds with kind | kind
            · simp only [kind, decide_true, Bool.true_and, Bool.or_eq_true, not_or] at stops
              simpa [resumes, kind] using stops.2
            · simp [resumes, kind]
          · obtain ⟨own, place⟩ := ih [] (.nil rest) rfl after part later
            refine ⟨own, place.trans ?_⟩
            exact ((List.suffix_cons token rest).trans (List.suffix_append _ _)).isInfix
    · next inside =>
      obtain ⟨next, one, others, depth⟩ := brackets_cons after
      rw [depth] at mem
      have grown : Growing (token :: current).reverse rest := by
        rw [List.reverse_cons]
        refine growing.snoc ?_ ?_
        · intro empty
          rw [empty] at before
          cases before
          simpa using inside
        · intro separates balanced
          rw [Balanced, before] at balanced
          cases balanced
          simp [separates] at inside
      have left : brackets [] (token :: current).reverse = .ok next := by
        rw [List.reverse_cons, brackets_append, before]
        exact one
      obtain ⟨own, place⟩ := ih _ grown left others part mem
      exact ⟨own, by simpa using place⟩

/-- The statements of a balanced token list are parts of it. -/
theorem statements_parts {tokens : List Token} (h : Balanced tokens) :
    ∀ part ∈ statements tokens, Part part ∧ part <:+: tokens :=
  splitFrom_parts [] (.nil tokens) rfl h

end Fragment

end ScriptShell
