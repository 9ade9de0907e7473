import ScriptShell.Proofs.Containment.Fragments
import ScriptShell.Proofs.Splitting.Continuation
import Mathlib.Data.List.Nodup
import Mathlib.Data.List.Range

/-!
What splitting keeps. The statements of a fragment stand one behind the other among its tokens, and
only separators outside all brackets stand between them. The code of a statement is cut out of the
source by the places of its first and its last token; read again, it has the tokens of the statement
and no others. So the code of a fragment holds what was typed, once and in order.
-/
namespace ScriptShell

namespace Fragment

/-- Where a statement stands among the tokens of a fragment. -/
structure Extent where
  first : Nat
  stop : Nat
deriving Repr, DecidableEq

/-- The tokens of an extent. -/
def Extent.slice (extent : Extent) (tokens : List Token) : List Token :=
  (tokens.drop extent.first).take (extent.stop - extent.first)

theorem Extent.slice_eq (front part back : List Token) :
    Extent.slice ⟨front.length, front.length + part.length⟩ (front ++ (part ++ back)) = part := by
  simp [slice]

/-- From a place on the tokens are cut into balanced extents, with separators between them that
stand outside all brackets. -/
inductive Cut (tokens : List Token) : Nat → List Extent → Prop where
  | done : Cut tokens tokens.length []
  | gap {i : Nat} {extents : List Extent} (inside : i < tokens.length)
      (separates : tokens[i].kind.isSeparator = true) (outside : Balanced (tokens.take i))
      (rest : Cut tokens (i + 1) extents) : Cut tokens i extents
  | extent (extent : Extent) {extents : List Extent} (proper : extent.first < extent.stop)
      (inside : extent.stop ≤ tokens.length) (balanced : Balanced (extent.slice tokens))
      (rest : Cut tokens extent.stop extents) : Cut tokens extent.first (extent :: extents)

/-- A separator behind balanced tokens. -/
theorem Cut.separator {front rest : List Token} {mark : Token} {extents : List Extent}
    (separates : mark.kind.isSeparator = true) (outside : Balanced front)
    (behind : Cut (front ++ mark :: rest) (front.length + 1) extents) :
    Cut (front ++ mark :: rest) front.length extents :=
  .gap (by simp) (by simpa using separates) (by simpa using outside) behind

/-- A balanced part behind other tokens. -/
theorem Cut.part {front part back : List Token} {extents : List Extent} (some : part ≠ [])
    (balanced : Balanced part)
    (behind : Cut (front ++ (part ++ back)) (front.length + part.length) extents) :
    Cut (front ++ (part ++ back)) front.length
      (⟨front.length, front.length + part.length⟩ :: extents) := by
  have length := List.length_pos_iff.mpr some
  refine .extent ⟨front.length, front.length + part.length⟩ ?_ ?_ ?_ behind
  · exact Nat.lt_add_of_pos_right length
  · simp
  · rw [Extent.slice_eq]
    exact balanced

/-- The splitter cuts what it still has to read. -/
theorem splitFrom_cut {tokens : List Token} (front current : List Token) {rest : List Token}
    {opened : List TokenKind} (split : tokens = front ++ (current.reverse ++ rest))
    (outside : Balanced front) (before : brackets [] current.reverse = .ok opened)
    (after : brackets opened rest = .ok []) :
    ∃ extents, Cut tokens front.length extents ∧
      extents.map (·.slice tokens) = splitFrom current opened.length rest := by
  induction rest generalizing front current opened with
  | nil =>
    cases after
    subst split
    cases current with
    | nil => exact ⟨[], by simpa using (.done : Cut front front.length []), rfl⟩
    | cons last others =>
      refine ⟨[_], .part (by simp) before ?_, ?_⟩
      · have whole : Cut (front ++ ((last :: others).reverse ++ [])) _ [] := .done
        simpa using whole
      · rw [List.map_singleton, Extent.slice_eq]
        rfl
  | cons token rest ih =>
    unfold splitFrom
    split
    · next cut =>
      obtain ⟨none, separates⟩ : opened = [] ∧ token.kind.isSeparator = true := by simpa using cut
      subst none
      rw [brackets_separator separates] at after
      cases current with
      | nil =>
        obtain ⟨extents, cuts, slices⟩ := ih (front ++ [token]) [] (by simpa using split)
          (outside.append (.separators (by simpa using separates))) rfl after
        subst split
        exact ⟨extents, .separator separates outside (by simpa using cuts), slices⟩
      | cons last others =>
        simp only
        split
        · refine ih front (token :: last :: others) (by simpa using split) outside ?_ after
          rw [List.reverse_cons, brackets_append, before]
          exact brackets_separator separates
        · obtain ⟨extents, cuts, slices⟩ :=
            ih (front ++ ((last :: others).reverse ++ [token])) [] (by simpa using split)
              (outside.append (.append before (.separators (by simpa using separates)))) rfl after
          subst split
          refine ⟨⟨front.length, front.length + (last :: others).reverse.length⟩ :: extents,
            .part (by simp) before ?_, ?_⟩
          · rw [← List.append_assoc, ← List.length_append]
            refine .separator separates (outside.append before) ?_
            simpa [Nat.add_assoc] using cuts
          · rw [List.map_cons, Extent.slice_eq, slices]
            rfl
    · next inside =>
      obtain ⟨next, one, others, depth⟩ := brackets_cons after
      rw [depth]
      refine ih front (token :: current) (by simpa using split) outside ?_ others
      rw [List.reverse_cons, brackets_append, before]
      exact one

/-- The extents stand one behind the other, and leave only separators outside all brackets. -/
structure Covers (tokens : List Token) (extents : List Extent) : Prop where
  proper : ∀ extent ∈ extents, extent.first < extent.stop ∧ extent.stop ≤ tokens.length
  apart : extents.Pairwise (·.stop ≤ ·.first)
  balanced : ∀ extent ∈ extents, Balanced (extent.slice tokens)
  covering : ∀ i, (inside : i < tokens.length) →
    (∃ extent ∈ extents, extent.first ≤ i ∧ i < extent.stop) ∨
      (tokens[i].kind.isSeparator = true ∧ Balanced (tokens.take i))

namespace Cut

variable {tokens : List Token} {i : Nat} {extents : List Extent}

theorem proper (h : Cut tokens i extents) : ∀ extent ∈ extents,
    i ≤ extent.first ∧ extent.first < extent.stop ∧ extent.stop ≤ tokens.length := by
  induction h with
  | done => simp
  | gap inside separates outside rest ih =>
    intro extent mem
    have := ih extent mem
    omega
  | extent extent proper inside balanced rest ih =>
    intro other mem
    rcases List.mem_cons.mp mem with rfl | mem
    · exact ⟨le_rfl, proper, inside⟩
    · have := ih other mem
      omega

theorem apart (h : Cut tokens i extents) : extents.Pairwise (·.stop ≤ ·.first) := by
  induction h with
  | done => exact .nil
  | gap inside separates outside rest ih => exact ih
  | extent extent proper inside balanced rest ih =>
    exact .cons (fun other mem => (rest.proper other mem).1) ih

theorem balanced (h : Cut tokens i extents) :
    ∀ extent ∈ extents, Balanced (extent.slice tokens) := by
  induction h with
  | done => simp
  | gap inside separates outside rest ih => exact ih
  | extent extent proper inside balanced rest ih => simpa using ⟨balanced, ih⟩

theorem covering (h : Cut tokens i extents) (j : Nat) (behind : i ≤ j)
    (inside : j < tokens.length) :
    (∃ extent ∈ extents, extent.first ≤ j ∧ j < extent.stop) ∨
      (tokens[j].kind.isSeparator = true ∧ Balanced (tokens.take j)) := by
  induction h with
  | done => omega
  | @gap i extents _ separates outside rest ih =>
    by_cases own : i = j
    · subst own
      exact .inr ⟨separates, outside⟩
    · exact ih (by omega)
  | @extent extent extents proper _ balanced rest ih =>
    by_cases own : j < extent.stop
    · exact .inl ⟨extent, List.mem_cons_self, behind, own⟩
    · refine (ih (by omega)).imp_left ?_
      rintro ⟨other, mem, place⟩
      exact ⟨other, List.mem_cons_of_mem _ mem, place⟩

theorem covers (h : Cut tokens 0 extents) : Covers tokens extents where
  proper extent mem := (h.proper extent mem).2
  apart := h.apart
  balanced := h.balanced
  covering i inside := h.covering i (Nat.zero_le i) inside

end Cut

/-- Neither a separator nor the end of the input. -/
def isSignificant (kind : TokenKind) : Bool := !kind.isSeparator && kind ≠ .endOfInput

/-- The tokens that are neither separators nor the end of the input. -/
def significant (tokens : List Token) : List Token := tokens.filter (isSignificant ·.kind)

theorem map_glyph_significant (tokens : List Token) :
    (significant tokens).map Token.glyph = (tokens.map Token.glyph).filter (isSignificant ·.1) := by
  rw [significant, List.filter_map]
  rfl

/-- The extents hold every token from a place on that is no separator, in order. -/
theorem Cut.significant {tokens : List Token} {i : Nat} {extents : List Extent}
    (h : Cut tokens i extents) :
    Fragment.significant (tokens.drop i) =
      (extents.map (·.slice tokens)).flatMap Fragment.significant := by
  induction h with
  | done => simp [Fragment.significant]
  | gap inside separates outside rest ih =>
    rw [List.drop_eq_getElem_cons inside, ← ih, Fragment.significant, List.filter_cons_of_neg]
    · rfl
    · simp [isSignificant, separates]
  | @extent extent extents proper inside balanced rest ih =>
    have split : tokens.drop extent.first = extent.slice tokens ++ tokens.drop extent.stop := by
      have behind : extent.first + (extent.stop - extent.first) = extent.stop := by omega
      rw [Extent.slice, ← behind, ← List.drop_drop, behind, List.take_append_drop]
    rw [split, Fragment.significant, List.filter_append, List.map_cons, List.flatMap_cons, ← ih]
    rfl

/-- A statement of a fragment: where it stands, its text, and the name that its value gets if it is
a bare expression. -/
structure Clause where
  extent : Extent
  text : String
  result : Option String

/-- The code of a statement. -/
def Clause.code (clause : Clause) : String :=
  match clause.result with
  | some name => "val " ++ name ++ " = " ++ clause.text
  | none => clause.text

/-- The statements at the given extents. -/
def clausesFrom (source line : String) (several : Bool) (tokens : List Token) (index : Nat) :
    List Extent → List Clause
  | [] => []
  | extent :: rest =>
    let part := extent.slice tokens
    if isExpression part then
      ⟨extent, spanText source part, some (resultName line several index)⟩ ::
        clausesFrom source line several tokens (index + 1) rest
    else
      ⟨extent, spanText source part, none⟩ :: clausesFrom source line several tokens index rest

section Clauses

variable {source line : String} {several : Bool} {tokens : List Token} {index : Nat}
  {extents : List Extent}

theorem clausesFrom_extents :
    (clausesFrom source line several tokens index extents).map (·.extent) = extents := by
  induction extents generalizing index with
  | nil => rfl
  | cons extent extents ih =>
    unfold clausesFrom
    dsimp only
    split <;> exact congrArg (extent :: ·) ih

theorem clausesFrom_code :
    (clausesFrom source line several tokens index extents).map (·.code) =
      (declarationsFrom source line several index (extents.map (·.slice tokens))).map (·.code) := by
  induction extents generalizing index with
  | nil => rfl
  | cons extent extents ih =>
    unfold clausesFrom
    rw [List.map_cons]
    unfold declarationsFrom
    dsimp only
    split <;> exact congrArg (_ :: ·) ih

theorem clausesFrom_mem : ∀ clause ∈ clausesFrom source line several tokens index extents,
    clause.extent ∈ extents ∧ clause.text = spanText source (clause.extent.slice tokens) ∧
      clause.result.isSome = isExpression (clause.extent.slice tokens) := by
  induction extents generalizing index with
  | nil => simp [clausesFrom]
  | cons extent extents ih =>
    intro clause mem
    unfold clausesFrom at mem
    dsimp only at mem
    split at mem
    all_goals
      next expression =>
      rcases List.mem_cons.mp mem with rfl | mem
      · exact ⟨List.mem_cons_self, rfl, by simp [expression]⟩
      · obtain ⟨among, own⟩ := ih clause mem
        exact ⟨List.mem_cons_of_mem _ among, own⟩

/-- The expressions are numbered one after the other. -/
theorem clausesFrom_results :
    (clausesFrom source line several tokens index extents).filterMap (·.result) =
      (List.range' index ((extents.map (·.slice tokens)).filter isExpression).length).map
        (resultName line several) := by
  induction extents generalizing index with
  | nil => rfl
  | cons extent extents ih =>
    unfold clausesFrom
    rw [List.map_cons]
    dsimp only
    split
    · next expression =>
      rw [List.filter_cons_of_pos expression, List.length_cons, List.range'_succ, List.map_cons,
        ← ih]
      rfl
    · next plain =>
      rw [List.filter_cons_of_neg plain, ← ih]
      rfl

end Clauses

/-- Where a fragment has several expressions, their numbers tell their names apart. -/
theorem resultName_inj {line : String} {m n : Nat}
    (same : resultName line true m = resultName line true n) : m = n := by
  apply toString_nat_inj
  have letters := congrArg String.toList same
  simpa [resultName] using letters

/-- The names of the results of a fragment. -/
theorem resultNames_nodup (line : String) (index count : Nat) :
    ((List.range' index count).map (resultName line (count > 1))).Nodup := by
  by_cases several : count > 1
  · simp only [several, decide_true]
    exact List.Nodup.map (fun m n => resultName_inj) (List.nodup_range' ..)
  · have few : count = 0 ∨ count = 1 := by omega
    rcases few with rfl | rfl <;> simp

open Lexer

/-- A text that is lexed has the tokens it spells. -/
theorem tokenize_of_spell {text : String} {glyphs : List Glyph}
    (h : spell false text.toList = some glyphs) :
    ∃ tokens, tokenize text = .ok tokens ∧ tokens.map Token.glyph = glyphs := by
  rw [tokenize_eq]
  unfold spell Lexer.glyphs at h
  split at h
  · next tokens lexes => exact ⟨tokens, lexes, Option.some.inj h⟩
  · cases h

section Texts

variable {source : String}

/-- The text of a statement has its tokens. -/
theorem Placed.tokens {part : List Token} (h : Placed source part) :
    ∃ own, tokenize (spanText source part) = .ok own ∧
      own.map Token.glyph = part.map Token.glyph ++ [(.endOfInput, "")] := by
  apply tokenize_of_spell
  have whole := h.respells false [] (by simp)
  rwa [List.append_nil, spell_nil] at whole

/-- The texts of statements, with line ends behind them, spell what is significant in the
statements. -/
theorem paragraph_significant {parts : List (List Token)}
    (placed : ∀ part ∈ parts, Placed source part) :
    ∃ glyphs, Spells false (paragraph (parts.map fun part => (spanText source part).toList)) glyphs
        false ∧
      glyphs.filter (isSignificant ·.1) = (parts.flatMap significant).map Token.glyph := by
  induction parts with
  | nil => exact ⟨[], .nil false, rfl⟩
  | cons part parts ih =>
    obtain ⟨others, spells, same⟩ := ih fun other mem => placed other (List.mem_cons_of_mem _ mem)
    have own := (placed part List.mem_cons_self).spells false
    refine ⟨_, own.append spells, ?_⟩
    have line : (if breaksAfter part then [((.newline, "\\n") : Glyph)] else []).filter
        (isSignificant ·.1) = [] := by
      split <;> rfl
    rw [List.filter_append, List.filter_append, line, same, List.append_nil, List.flatMap_cons,
      List.map_append, map_glyph_significant]

theorem tokenize_paragraph {parts : List (List Token)}
    (placed : ∀ part ∈ parts, Placed source part) :
    ∃ whole, tokenize (String.ofList (paragraph (parts.map fun part =>
        (spanText source part).toList))) = .ok whole ∧
      (significant whole).map Token.glyph = (parts.flatMap significant).map Token.glyph := by
  obtain ⟨glyphs, spells, same⟩ := paragraph_significant placed
  have all := spells []
  rw [List.append_nil, spell_nil] at all
  obtain ⟨whole, read, spelled⟩ := tokenize_of_spell (by rwa [String.toList_ofList])
  refine ⟨whole, read, ?_⟩
  rw [map_glyph_significant, spelled, List.filter_append, same]
  exact List.append_nil _

end Texts

/-- A statement whose text has its tokens. It has a result if it is a bare expression. -/
structure Clause.Faithful (line : String) (tokens : List Token) (clause : Clause) : Prop where
  bare : clause.result.isSome = isExpression (clause.extent.slice tokens)
  named : ∀ name ∈ clause.result, ∃ several index, name = resultName (sanitize line) several index
  rereads : ∃ own, tokenize clause.text = .ok own ∧
    own.map Token.glyph = (clause.extent.slice tokens).map Token.glyph ++ [(.endOfInput, "")]

/-- Splitting loses nothing: the statements leave only separators outside all brackets, each one's
text has its own tokens, all texts together have the significant tokens of the source in order, and
no two results have the same name. -/
theorem parse_covers {source line : String} {decls : List Decl}
    (h : parse source line = .declarations decls) :
    ∃ (tokens : List Token) (clauses : List Clause), tokenize source = .ok tokens ∧
      Covers (written tokens) (clauses.map (·.extent)) ∧
      decls.map (·.code) = clauses.map (·.code) ∧
      (∀ clause ∈ clauses, clause.Faithful line (written tokens)) ∧
      (∃ whole, tokenize (String.ofList (paragraph (clauses.map (·.text.toList)))) = .ok whole ∧
        (significant whole).map Token.glyph = (significant tokens).map Token.glyph) ∧
      (clauses.filterMap (·.result)).Nodup := by
  obtain ⟨front, stop, lexes, ends, solid, closed, rfl⟩ := parse_declarations h
  have placed := statements_placed lexes solid closed
  have kept := written_ending ends solid
  obtain ⟨extents, cuts, slices⟩ : ∃ extents, Cut front 0 extents ∧
      extents.map (·.slice front) = statements front :=
    splitFrom_cut [] [] rfl .nil rfl closed
  rw [← slices] at placed ⊢
  let clauses := clausesFrom source (sanitize line)
    (((extents.map (·.slice front)).filter isExpression).length > 1) front 0 extents
  have own : clauses.map (·.extent) = extents := clausesFrom_extents
  refine ⟨front ++ [stop], clauses, lexes, ?_, clausesFrom_code.symm, ?_, ?_, ?_⟩
  · rw [own, kept]
    exact cuts.covers
  · intro clause mem
    obtain ⟨among, text, bare⟩ := clausesFrom_mem clause mem
    refine ⟨by rw [kept, bare], fun name own => ?_, ?_⟩
    · have listed : name ∈ clauses.filterMap (·.result) := List.mem_filterMap.mpr ⟨clause, mem, own⟩
      rw [clausesFrom_results] at listed
      obtain ⟨index, -, rfl⟩ := List.mem_map.mp listed
      exact ⟨_, index, rfl⟩
    · rw [text, kept]
      exact (placed _ (List.mem_map_of_mem among)).tokens
  · obtain ⟨whole, read, same⟩ := tokenize_paragraph placed
    have texts : clauses.map (·.text.toList) =
        (extents.map (·.slice front)).map fun part => (spanText source part).toList := by
      rw [← own, List.map_map, List.map_map]
      exact List.map_congr_left fun clause mem =>
        congrArg String.toList (clausesFrom_mem clause mem).2.1
    have kinds : significant (front ++ [stop]) = significant front := by
      simp [significant, isSignificant, ends]
    have held : significant front = (extents.map (·.slice front)).flatMap significant :=
      cuts.significant
    exact ⟨whole, by rw [texts, read], by rw [kinds, held, same]⟩
  · rw [clausesFrom_results]
    exact resultNames_nodup ..

/-- A selection behind a newline and a comment, two separators in a row, and an operator at the end
of a line. -/
theorem parse_covers_mixed : ∃ (tokens : List Token) (clauses : List Clause),
    tokenize "1; a(\n2)\n.b // c\nval x = 3;;\nx +\n\x7b y\nz\x7d" = .ok tokens ∧
    Covers (written tokens) (clauses.map (·.extent)) ∧
    clauses.map (·.code) = ["val res4_2_0 = 1", "val res4_2_1 = a(\n2)\n.b", "val x = 3",
      "val res4_2_2 = x +\n\x7b y\nz\x7d"] ∧
    (∀ clause ∈ clauses, clause.Faithful "4-2" (written tokens)) ∧
    (clauses.filterMap (·.result)).Nodup := by
  have known : parse "1; a(\n2)\n.b // c\nval x = 3;;\nx +\n\x7b y\nz\x7d" "4-2" = .declarations [
      ⟨"val res4_2_0 = 1", [.identity "res4_2_0"], []⟩,
      ⟨"val res4_2_1 = a(\n2)\n.b", [.identity "res4_2_1"], ["a"]⟩,
      ⟨"val x = 3", [.identity "x"], ["x"]⟩,
      ⟨"val res4_2_2 = x +\n\x7b y\nz\x7d", [.identity "res4_2_2"], ["x", "y", "z"]⟩] := by
    decide +kernel
  obtain ⟨tokens, clauses, lexes, covers, code, faithful, -, names⟩ := parse_covers known
  exact ⟨tokens, clauses, lexes, covers, code.symm, faithful, names⟩

end Fragment

end ScriptShell
