import ScriptShell.Proofs.Splitting.Members
import ScriptShell.Proofs.Lexing.Lines

/-!
The statements of a body are its members. Between the members that the parser reads stand
separators, and inside a member a newline outside all brackets is one over which the splitter goes
on, too: behind a token that asks for more, or in front of `else` or `.`. The parser goes on at one
more place, behind the condition of an `if`. Where no newline stands there, the splitter cuts a body
exactly where the parser does.
-/
namespace ScriptShell

/-- A newline outside all brackets stands behind the condition of an `if`, in front of further
tokens. -/
def BreaksTest (tokens : List Token) : Prop :=
  ∃ front line back, tokens = front ++ line :: back ∧ line.kind = .newline ∧ back ≠ [] ∧
    Balanced front ∧ ClosesTest front

theorem BreaksTest.around {tokens front : List Token} (h : BreaksTest tokens)
    (before : Balanced front) (back : List Token) : BreaksTest (front ++ (tokens ++ back)) := by
  obtain ⟨own, line, rest, rfl, newline, some, balanced, first, word, opening, test, closing, rfl,
    tested⟩ := h
  exact ⟨front ++ _, line, rest ++ back, by simp, newline, by simp [some], before.append balanced,
    front ++ first, word, opening, test, closing, by simp, tested⟩

/-- No newline token follows another one. -/
def Single (tokens : List Token) : Prop :=
  tokens.IsChain fun token next => ¬ (token.kind = .newline ∧ next.kind = .newline)

namespace Fragment

/-- Tokens that the splitter keeps together and ends where they end. -/
structure Whole (part : List Token) : Prop where
  balanced : Balanced part
  head : ∃ first ∈ part.head?, first.kind.isSeparator = false
  bridged : Bridged part
  lines : ∀ front mark back, part = front ++ mark :: back → mark.kind.isSeparator = true →
    Balanced front → mark.kind = .newline
  last : ∀ last ∈ part.getLast?, last.kind.closesStatement = true

namespace Whole

variable {part : List Token}

theorem ne_nil (h : Whole part) : part ≠ [] := by
  rintro rfl
  obtain ⟨first, mem, -⟩ := h.head
  cases mem

/-- What the parser read as one phrase, with no newline behind a condition. -/
theorem of_took {c d : Cursor} (took : Cursor.Took (·.closesStatement = true) c d part)
    (lt : d.left < c.left) (outside : c.depth = 0) (solid : c.kind.isSeparator = false)
    (single : Single part) (closed : ¬ BreaksTest part) : Whole part where
  balanced := took.balanced
  head := by
    obtain ⟨others, rfl⟩ := took.head lt outside
    exact ⟨_, rfl, solid⟩
  lines front mark back split separates before :=
    (took.unbroken outside front mark back split separates before).1
  last := took.last
  bridged := by
    intro front mark back split separates before
    obtain ⟨newline, -, goes⟩ := took.unbroken outside front mark back split separates before
    refine goes.imp_left ?_
    rintro ⟨own, lines, rfl, newlines, asks⟩
    -- the newline in front of `mark` would be the second one in a row
    have none : lines = [] := by
      rcases List.eq_nil_or_concat' lines with none | ⟨others, line, rfl⟩
      · exact none
      · have chain : Single ((own ++ (others ++ [line])) ++ mark :: back) := split ▸ single
        have twice := (List.isChain_append.mp chain).2.2 line (by simp) mark rfl
        exact absurd ⟨newlines line (by simp), newline⟩ twice
    subst none
    rw [List.append_nil] at before split ⊢
    rcases asks with asks | test
    · exact asks
    · -- a phrase does not end in a newline
      have some : back ≠ [] := by
        rintro rfl
        have ends := took.last mark (by simp [split])
        rw [TokenKind.closesStatement, separates] at ends
        simp at ends
      exact absurd ⟨own, mark, back, split, newline, some, before, test⟩ closed

end Whole

/-- Parts with separators between them, and perhaps around them. -/
inductive Spaced : List (List Token) → List Token → Prop where
  | nil {gap : List Token} (separates : ∀ mark ∈ gap, mark.kind.isSeparator = true) : Spaced [] gap
  | cons {gap part rest : List Token} {parts : List (List Token)}
      (separates : ∀ mark ∈ gap, mark.kind.isSeparator = true) (whole : Whole part)
      (edge : ∀ next ∈ rest.head?, next.kind.isSeparator = true) (stops : resumes rest = false)
      (others : Spaced parts rest) : Spaced (part :: parts) (gap ++ (part ++ rest))

/-- Outside all brackets a separator ends the statement in front of it, unless that goes on. -/
theorem splitFrom_separator (last : Token) (more : List Token) {mark : Token}
    (separates : mark.kind.isSeparator = true) (rest : List Token) :
    splitFrom (last :: more) 0 (mark :: rest) =
      if mark.kind = .newline && (last.kind.continues || resumes rest) then
        splitFrom (mark :: last :: more) 0 rest
      else (last :: more).reverse :: splitFrom [] 0 rest := by
  rw [splitFrom, if_pos (by simp [separates])]

theorem splitFrom_token (current : List Token) {depth : Nat} {token : Token}
    (inside : ¬ (depth = 0 ∧ token.kind.isSeparator = true)) (rest : List Token) :
    splitFrom current depth (token :: rest) =
      splitFrom (token :: current) (depthAfter depth token.kind) rest := by
  have off : ¬ (decide (depth = 0) && token.kind.isSeparator) = true := by simpa using inside
  cases current <;> rw [splitFrom, if_neg off]

theorem splitFrom_gap (gap rest : List Token)
    (separates : ∀ mark ∈ gap, mark.kind.isSeparator = true) : splitFrom [] 0 (gap ++ rest) = splitFrom [] 0 rest := by
  induction gap with
  | nil => rfl
  | cons mark gap ih =>
    have own := separates mark (by simp)
    rw [List.cons_append, splitFrom, if_pos (by simp [own])]
    exact ih fun mark mem => separates mark (by simp [mem])

/-- The splitter reads a part to its end. -/
theorem splitFrom_whole {part rest : List Token} (whole : Whole part)
    (edge : ∀ next ∈ rest.head?, next.kind.isSeparator = true) (stops : resumes rest = false)
    {front back : List Token} {opened : List TokenKind} (split : part = front ++ back)
    (before : brackets [] front = .ok opened) :
    splitFrom front.reverse opened.length (back ++ rest) = part :: splitFrom [] 0 rest := by
  have balanced : brackets opened back = .ok [] := by
    have own : brackets [] (front ++ back) = .ok [] := split ▸ whole.balanced
    rwa [brackets_append, before] at own
  induction back generalizing front opened with
  | nil =>
    obtain rfl : part = front := by simpa using split
    cases balanced
    obtain ⟨last, others, reversed⟩ :=
      List.exists_cons_of_ne_nil (List.reverse_ne_nil_iff.mpr whole.ne_nil)
    have read : part = (last :: others).reverse := by rw [← reversed, List.reverse_reverse]
    have ends : last.kind.continues = false := by
      have closes := whole.last last (by rw [read]; simp)
      simp only [TokenKind.closesStatement, Bool.and_eq_true, Bool.not_eq_true'] at closes
      exact closes.1
    cases rest with
    | nil => simp [splitFrom, read]
    | cons mark rest =>
      have separates := edge mark rfl
      have cut : (decide (mark.kind = .newline) && (last.kind.continues || resumes rest)) = false := by
        by_cases newline : mark.kind = .newline
        · have none : resumes rest = false := by simpa [resumes, newline] using stops
          simp [ends, none]
        · simp [newline]
      have next : splitFrom [] 0 (mark :: rest) = splitFrom [] 0 rest :=
        splitFrom_gap [mark] rest (by simpa using separates)
      rw [next, List.nil_append, reversed, List.length_nil, splitFrom_separator _ _ separates,
        if_neg (by simp [cut]), ← read]
  | cons token back ih =>
    obtain ⟨after, one, others, depth⟩ := brackets_cons balanced
    have further : brackets [] (front ++ [token]) = .ok after := by
      rw [brackets_append, before]
      exact one
    have onward := @ih (front ++ [token]) after (by simpa using split) further others
    rw [List.reverse_append, List.reverse_singleton, List.singleton_append] at onward
    rw [List.cons_append]
    by_cases cut : opened = [] ∧ token.kind.isSeparator = true
    · obtain ⟨rfl, separates⟩ := cut
      have newline := whole.lines front token back split separates before
      -- a part starts with no separator
      obtain ⟨last, more, reversed⟩ : ∃ last more, front.reverse = last :: more := by
        refine List.exists_cons_of_ne_nil fun none => ?_
        obtain rfl : front = [] := List.reverse_eq_nil_iff.mp none
        obtain ⟨first, mem, solid⟩ := whole.head
        obtain rfl : token = first := by simpa [split] using mem
        rw [separates] at solid
        cases solid
      have goes : (decide (token.kind = .newline) && (last.kind.continues || resumes (back ++ rest))) =
          true := by
        have read : front = more.reverse ++ [last] := by
          rw [← List.reverse_reverse front, reversed, List.reverse_cons]
        rcases whole.bridged front token back split separates before with ⟨other, mem, asks⟩ | resumed
        · obtain rfl : last = other := by simpa [read] using mem
          simp [newline, asks]
        · simp [newline, Unbroken.resumes_front rest resumed]
      obtain rfl : after = [] := by
        rw [brackets_separator separates] at one
        cases one
        rfl
      rw [reversed] at onward ⊢
      rw [List.length_nil, splitFrom_separator _ _ separates, if_pos goes]
      exact onward
    · rw [splitFrom_token _ (by simpa using cut), depth]
      exact onward

/-- The splitter finds the parts. -/
theorem Spaced.statements {parts : List (List Token)} {tokens : List Token}
    (h : Spaced parts tokens) : Fragment.statements tokens = parts := by
  unfold Fragment.statements
  induction h with
  | nil separates =>
    have none := splitFrom_gap _ [] separates
    rw [List.append_nil] at none
    rw [none]
    rfl
  | cons separates whole edge stops others ih =>
    rw [splitFrom_gap _ _ separates, ← ih]
    exact splitFrom_whole whole edge stops (List.nil_append _).symm rfl

/-- The separators at the end do not count. -/
theorem Spaced.trim {parts : List (List Token)} {tokens gap : List Token}
    (h : Spaced parts (tokens ++ gap)) (separates : ∀ mark ∈ gap, mark.kind.isSeparator = true) :
    Spaced parts tokens := by
  generalize same : tokens ++ gap = whole at h
  induction h generalizing tokens with
  | nil all => exact .nil fun mark mem => all mark (same ▸ List.mem_append_left gap mem)
  | @cons front part rest parts before whole edge stops others ih =>
    rw [← List.append_assoc] at same
    rcases List.append_eq_append_iff.mp same with ⟨more, split, tail⟩ | ⟨more, rfl, rfl⟩
    · -- the separators are behind the part, which ends in no separator
      obtain rfl : more = [] := by
        rcases List.eq_nil_or_concat' more with none | ⟨init, mark, rfl⟩
        · exact none
        · have ends : part.getLast? = some mark := by
            rw [← List.getLast?_append_of_ne_nil front whole.ne_nil, split]
            simp
          have closes := whole.last mark ends
          rw [TokenKind.closesStatement, separates mark (by simp [tail])] at closes
          simp at closes
      have last : Spaced parts [] := ih (by simpa using tail)
      have own := Spaced.cons before whole (by simp) rfl last
      rw [List.append_nil] at split own
      rwa [← split]
    · rw [List.append_assoc]
      refine .cons before whole ?_ ?_ (ih rfl)
      · cases more with
        | nil => simp
        | cons next more => exact edge
      · cases resumed : resumes more with
        | false => rfl
        | true => rw [Unbroken.resumes_front gap resumed] at stops; cases stops

theorem Spaced.gap {parts : List (List Token)} {gap tokens : List Token} (h : Spaced parts tokens)
    (separates : ∀ mark ∈ gap, mark.kind.isSeparator = true) : Spaced parts (gap ++ tokens) := by
  cases h with
  | nil all => exact .nil (List.forall_mem_append.mpr ⟨separates, all⟩)
  | cons all whole edge stops others =>
    rw [← List.append_assoc]
    exact .cons (List.forall_mem_append.mpr ⟨separates, all⟩) whole edge stops others

theorem balanced_separators {gap : List Token}
    (separates : ∀ mark ∈ gap, mark.kind.isSeparator = true) : Balanced gap := by
  induction gap with
  | nil => exact .nil
  | cons mark gap ih =>
    rw [List.forall_mem_cons] at separates
    rw [Balanced, brackets_separator separates.1]
    exact ih separates.2

theorem Spaced.balanced {parts : List (List Token)} {tokens : List Token} (h : Spaced parts tokens) :
    Balanced tokens := by
  induction h with
  | nil separates => exact balanced_separators separates
  | cons separates whole edge stops others ih =>
    exact (balanced_separators separates).append (whole.balanced.append ih)

theorem dangling_append (front back : List Token) : Fragment.dangling (front ++ back) =
    if ∀ token ∈ back, token.kind = .newline then Fragment.dangling front
    else Fragment.dangling back := by
  unfold Fragment.dangling
  rw [List.reverse_append, List.dropWhile_append]
  by_cases newlines : ∀ token ∈ back, token.kind = .newline
  · rw [if_pos (by simpa using newlines), if_pos newlines]
  · have some : back.reverse.dropWhile (·.kind = .newline) ≠ [] := by
      simpa [List.dropWhile_eq_nil_iff] using newlines
    obtain ⟨last, more, left⟩ := List.exists_cons_of_ne_nil some
    rw [if_neg (by simpa using some), if_neg newlines, left]
    rfl

/-- Parts and separators leave no statement open. -/
theorem Spaced.closed {parts : List (List Token)} {tokens : List Token} (h : Spaced parts tokens) :
    Fragment.dangling tokens = false := by
  induction h with
  | @nil gap separates =>
    unfold Fragment.dangling
    split
    · rfl
    · next last more left =>
      have among : last ∈ gap.reverse.dropWhile (·.kind = .newline) := by simp [left]
      have own := separates last (by simpa using (List.dropWhile_sublist _).subset among)
      have kinds : last.kind = .newline ∨ last.kind = .punct .semicolon := by
        simpa [TokenKind.isSeparator] using own
      rcases kinds with kind | kind <;> rw [kind] <;> rfl
  | @cons gap part rest parts separates whole edge stops others ih =>
    have some : ¬ ∀ token ∈ part, token.kind = .newline := by
      obtain ⟨first, mem, solid⟩ := whole.head
      intro newlines
      rw [newlines first (List.mem_of_mem_head? mem)] at solid
      cases solid
    rw [dangling_append]
    split
    · next newlines => exact absurd (fun token mem => newlines token (List.mem_append_left _ mem)) some
    · rw [dangling_append]
      split
      · obtain ⟨last, init, reversed⟩ :=
          List.exists_cons_of_ne_nil (List.reverse_ne_nil_iff.mpr whole.ne_nil)
        have closes := whole.last last (by simp [← List.head?_reverse, reversed])
        simp only [TokenKind.closesStatement, Bool.and_eq_true, Bool.not_eq_true'] at closes
        have solid : last.kind ≠ .newline := by
          intro line
          rw [line] at closes
          cases closes.2
        rw [Fragment.dangling, reversed, List.dropWhile_cons_of_neg (by simpa using solid)]
        exact closes.1
      · exact ih

end Fragment

namespace Parser

open Cursor Fragment

/-- A member that is read from the given tokens, all of them and no others, in front of a tail with
which statements end. -/
def MemberAhead (part : List Token) (value : Member) : Prop :=
  ∃ (c : Cursor) (p : Parsed Member c), c.depth = 0 ∧ c.rest = part ++ p.cursor.rest ∧
    member c = .ok p ∧ p.value = value ∧ Stops p.cursor.rest

/-- Where a body goes on or ends behind a member, the member's statement ends. -/
theorem stops_members {c : Cursor} {r : Extended (List Member) c.skipSeparators}
    (outside : c.depth = 0) (separates : c.kind.isSeparator = true)
    (h : members c.skipSeparators = .ok r) : Stops c.rest where
  head token mem := by
    obtain ⟨rest, split⟩ := List.head?_eq_some_iff.mp mem
    rw [TokenKind.isStop, ← kind_of_rest outside split, separates]
    rfl
  resumes := by
    by_contra resumes
    obtain ⟨token, rest, shown, word⟩ := dropWhile_of_resumes [] (by simpa using resumes)
    rw [List.append_nil] at shown
    have kind : c.skipSeparators.kind = token.kind := kind_of_rest (c := c.skipSeparators) outside shown
    obtain ⟨noElse, noDot⟩ := members_goes h
    rw [kind] at noElse noDot
    exact word.elim noElse noDot

theorem stops_closing {c : Cursor} (outside : c.depth = 0) (closes : c.kind = .punct .closeBrace) :
    Stops c.rest := by
  obtain ⟨lines, -, none, split⟩ := rest_next (c := c) (by simp [closes])
  have kind : c.current.kind = .punct .closeBrace := closes
  rw [split, none outside]
  exact ⟨by simp [kind, TokenKind.isStop], by simp [resumes, kind]⟩

/-- The members of a body are read from parts of it, with separators between them. -/
theorem members_spaced {c : Cursor} {r : Extended (List Member) c} (outside : c.depth = 0)
    (h : members c = .ok r) {body : List Token} (split : c.rest = body ++ r.cursor.rest)
    (single : Single body) (closed : ¬ BreaksTest body) :
    r.cursor.kind = .punct .closeBrace ∧
      ∃ parts, Spaced parts body ∧ List.Forall₂ MemberAhead parts r.value := by
  unfold members at h
  split at h
  · next closes =>
    cases h
    obtain rfl : body = [] := by simpa using split
    exact ⟨closes, [], .nil (by simp), .nil⟩
  · split at h
    · cases h
    · obtain ⟨first, own, h⟩ := Except.bind_ok.mp h
      have depth : first.cursor.depth = 0 := first.follows.reaches.depth.trans outside
      have solid : c.kind.isSeparator = false := TokenKind.OpensLine.solid (member_opens own).symm
      obtain ⟨part, took⟩ := member_completes own
      -- the part that is read is whole, whatever stands behind it in the body
      have whole {rest : List Token} (own : body = part ++ rest) : Whole part := by
        refine .of_took took first.follows.lt outside solid ?_ fun tests => closed ?_
        · rw [own] at single
          exact single.left_of_append
        · rw [own]
          exact tests.around .nil rest
      split at h
      · next closes =>
        cases h
        obtain rfl : body = part := List.append_cancel_right (split.symm.trans took.rest)
        have read : Spaced [body] ([] ++ (body ++ [])) :=
          .cons (by simp) (whole (List.append_nil _).symm) (by simp) rfl (.nil (by simp))
        exact ⟨closes, [body], by simpa using read,
          .cons ⟨c, first, outside, took.rest, own, rfl, stops_closing depth closes⟩ .nil⟩
      · split at h
        · next separates =>
          have := first.follows.lt
          have := left_skipSeparators_le first.cursor
          obtain ⟨rest, more, h⟩ := Except.bind_ok.mp h
          cases h
          have stops := stops_members depth separates more
          obtain ⟨others, behind⟩ := rest.reaches.rest
          let gap := first.cursor.rest.takeWhile (·.kind.isSeparator)
          have gaps : ∀ mark ∈ gap, mark.kind.isSeparator = true :=
            fun mark mem => by simpa using List.mem_takeWhile_imp mem
          have between : first.cursor.rest = gap ++ (others ++ rest.cursor.rest) := by
            rw [behind]
            exact List.takeWhile_append_dropWhile.symm
          obtain rfl : body = part ++ (gap ++ others) := by
            refine (List.append_left_inj rest.cursor.rest).mp ?_
            rw [← split, took.rest, between]
            simp
          obtain ⟨closes, parts, spaced, values⟩ := members_spaced (c := first.cursor.skipSeparators)
            depth more behind.symm
            (by rw [← List.append_assoc] at single; exact single.right_of_append)
            fun tests => closed (by
              have front := took.balanced.append (balanced_separators gaps)
              simpa using tests.around front [])
          have read : Spaced (part :: parts) ([] ++ (part ++ (gap ++ others))) := by
            refine .cons (by simp) (whole rfl) ?_ ?_ (spaced.gap gaps)
            · intro next mem
              obtain ⟨tail, shown⟩ := List.head?_eq_some_iff.mp mem
              rw [← List.append_assoc, shown, List.cons_append] at between
              rwa [← kind_of_rest depth between]
            · cases resumed : resumes (gap ++ others) with
              | false => rfl
              | true =>
                have goes := Unbroken.resumes_front rest.cursor.rest resumed
                rw [List.append_assoc, ← between, stops.resumes] at goes
                cases goes
          exact ⟨closes, part :: parts, read,
            .cons ⟨c, first, outside, took.rest, own, rfl, stops⟩ values⟩
        · cases h
termination_by c.left

end Parser

end ScriptShell
