import ScriptShell.Proofs.Printing.Reading

/-!
Operators between operands. A chain is a sequence of operands of one token, each behind any number
of unary operators, with a binary operator between any two of them and perhaps line ends behind it.
Every chain is an expression. Its tree holds the operators and operands of the chain in their order,
and it is the only such tree in which a unary operator applies to its own operand alone, and a
binary operator takes on its left what binds at least as tightly as itself and on its right what
binds more tightly.

One loop reads the operators of one looseness and leaves the looser ones to the loop around it. So
reading at a looseness takes in the operand and the links behind it up to the first looser one;
this is proved by induction on the looseness.
-/
namespace ScriptShell

/-- One piece of an expression that is read from left to right. -/
inductive Piece where
  | unary (span : Span) (op : UnaryOp)
  | binary (span : Span) (op : BinaryOp)
  | operand (value : Expr)

/-- How loosely a binary operator binds; other pieces do not bind at all. -/
def Piece.looseness : Piece → Nat
  | .binary _ op => op.looseness
  | _ => 0

namespace Expr

/-- The pieces of an expression from left to right. What is no operator is a single piece. -/
def pieces : Expr → List Piece
  | .binary span op left right => left.pieces ++ .binary span op :: right.pieces
  | .unary span op operand => .unary span op :: operand.pieces
  | value => [.operand value]

/-- How loosely the binary operator at the root binds; zero where there is none. -/
def looseness : Expr → Nat
  | .binary _ op _ _ => op.looseness
  | _ => 0

/-- The operator of a left operand binds at least as tightly as the one above it, that of a right
operand more tightly, and a unary operator does not apply to a binary one. -/
def LeftNested : Expr → Prop
  | .binary _ op left right => left.LeftNested ∧ right.LeftNested ∧
      left.looseness ≤ op.looseness ∧ right.looseness < op.looseness
  | .unary _ _ operand => operand.LeftNested ∧ operand.looseness = 0
  | _ => True

/-- No piece of a left-nested tree is looser than its root. -/
theorem LeftNested.pieces_le : {e : Expr} → e.LeftNested →
    ∀ piece ∈ e.pieces, piece.looseness ≤ e.looseness
  | .binary span op left right, h, piece, mem => by
    obtain ⟨lefts, rights, loose, tight⟩ := h
    rw [pieces, List.mem_append, List.mem_cons] at mem
    rcases mem with mem | rfl | mem
    · exact (lefts.pieces_le piece mem).trans loose
    · exact le_rfl
    · exact (rights.pieces_le piece mem).trans tight.le
  | .unary span op operand, h, piece, mem => by
    obtain ⟨own, bare⟩ := h
    rw [pieces, List.mem_cons] at mem
    rcases mem with rfl | mem
    · exact le_rfl
    · exact (own.pieces_le piece mem).trans bare.le
  | .int .., _, piece, mem | .str .., _, piece, mem | .unit .., _, piece, mem
  | .this .., _, piece, mem | .name .., _, piece, mem | .select .., _, piece, mem
  | .call .., _, piece, mem | .new .., _, piece, mem | .cond .., _, piece, mem
  | .block .., _, piece, mem => by
    obtain rfl := List.mem_singleton.mp mem
    exact le_rfl

/-- Where the root is no binary operator, no piece is one. -/
theorem LeftNested.binary_not_mem {e : Expr} (h : e.LeftNested) (bare : e.looseness = 0)
    (span : Span) (op : BinaryOp) : .binary span op ∉ e.pieces := by
  intro mem
  have le : op.looseness ≤ e.looseness := h.pieces_le _ mem
  have pos := op.looseness_pos
  omega

/-- A list is split in one way only at an element that nothing before exceeds and everything behind
stays below. -/
theorem split_unique {α : Type} (weight : α → Nat) {front back front' back' : List α} {x y : α}
    (same : front ++ x :: back = front' ++ y :: back')
    (before : ∀ z ∈ front, weight z ≤ weight x) (behind : ∀ z ∈ back, weight z < weight x)
    (before' : ∀ z ∈ front', weight z ≤ weight y) (behind' : ∀ z ∈ back', weight z < weight y) :
    front = front' ∧ x = y ∧ back = back' := by
  rcases List.append_eq_append_iff.mp same with ⟨more, rfl, tail⟩ | ⟨more, rfl, tail⟩
  · cases more with
    | nil => simpa using tail
    | cons z more =>
      obtain ⟨rfl, rfl⟩ := List.cons.inj tail
      have le := before' x (by simp)
      have lt := behind y (by simp)
      omega
  · cases more with
    | nil =>
      obtain ⟨rfl, rfl⟩ := List.cons.inj tail
      simp
    | cons z more =>
      obtain ⟨rfl, rfl⟩ := List.cons.inj tail
      have le := before y (by simp)
      have lt := behind' x (by simp)
      omega

/-- A left-nested tree is known from its pieces. -/
theorem LeftNested.unique : {e other : Expr} → e.LeftNested → other.LeftNested →
    e.pieces = other.pieces → e = other
  | .binary span op left right, other, h, k, same => by
    cases other with
    | binary span' op' left' right' =>
      obtain ⟨lefts, rights, loose, tight⟩ := h
      obtain ⟨lefts', rights', loose', tight'⟩ := k
      obtain ⟨front, root, back⟩ := split_unique Piece.looseness same
        (fun piece mem => (lefts.pieces_le piece mem).trans loose)
        (fun piece mem => Nat.lt_of_le_of_lt (rights.pieces_le piece mem) tight)
        (fun piece mem => (lefts'.pieces_le piece mem).trans loose')
        (fun piece mem => Nat.lt_of_le_of_lt (rights'.pieces_le piece mem) tight')
      cases root
      rw [lefts.unique lefts' front, rights.unique rights' back]
    | _ =>
      exact absurd (by rw [← same]; simp [pieces]) (k.binary_not_mem rfl span op)
  | .unary span op operand, other, h, k, same => by
    cases other with
    | binary span' op' left' right' =>
      exact absurd (by rw [same]; simp [pieces]) (h.binary_not_mem rfl span' op')
    | unary span' op' operand' =>
      obtain ⟨first, others⟩ := List.cons.inj same
      cases first
      rw [h.1.unique k.1 others]
    | _ => simp [pieces] at same
  | .int .., other, h, k, same | .str .., other, h, k, same | .unit .., other, h, k, same
  | .this .., other, h, k, same | .name .., other, h, k, same | .select .., other, h, k, same
  | .call .., other, h, k, same | .new .., other, h, k, same | .cond .., other, h, k, same
  | .block .., other, h, k, same => by
    cases other with
    | binary span' op' left' right' =>
      exact absurd (by rw [same]; simp [pieces]) (h.binary_not_mem rfl span' op')
    | unary span' op' operand' => simp [pieces] at same
    | _ => exact Piece.operand.inj (List.singleton_inj.mp same)

end Expr

/-- A unary operator as it is written. -/
structure Sign where
  token : Token
  op : UnaryOp
  kind : token.kind = .punct op.mark

/-- A left-nested tree of the given pieces that is at most that loose. -/
structure Expr.Forms (e : Expr) (loose : Nat) (pieces : List Piece) : Prop where
  pieces : e.pieces = pieces
  nested : e.LeftNested
  within : e.looseness ≤ loose

/-- A literal, a name or `this`, behind any number of unary operators. -/
structure Factor where
  signs : List Sign
  token : Token
  value : Expr
  atom : Parser.atom? token = some value

/-- A binary operator as it is written, perhaps with line ends behind it, and its right operand. -/
structure Link where
  token : Token
  op : BinaryOp
  kind : token.kind = .punct op.mark
  lines : List Token
  newlines : ∀ line ∈ lines, line.kind = .newline
  operand : Factor

/-- Operands with a binary operator between any two of them. -/
structure Chain where
  first : Factor
  links : List Link

namespace Factor

def tokens (operand : Factor) : List Token := operand.signs.map (·.token) ++ [operand.token]

def pieces (operand : Factor) : List Piece :=
  operand.signs.map (fun sign => .unary sign.token.span sign.op) ++ [.operand operand.value]

/-- The operand with its operators applied, the innermost one first. -/
def tree (operand : Factor) : Expr :=
  operand.signs.foldr (fun sign value => .unary sign.token.span sign.op value) operand.value

end Factor

def Link.tokens (link : Link) : List Token := link.token :: (link.lines ++ link.operand.tokens)

def Link.pieces (link : Link) : List Piece :=
  .binary link.token.span link.op :: link.operand.pieces

/-- The operator of a link is at most that loose. -/
def Link.tight (loose : Nat) (link : Link) : Bool := link.op.looseness ≤ loose

def Chain.tokens (chain : Chain) : List Token :=
  chain.first.tokens ++ chain.links.flatMap Link.tokens

def Chain.pieces (chain : Chain) : List Piece :=
  chain.first.pieces ++ chain.links.flatMap Link.pieces

theorem Parser.atom?_solid {token : Token} {value : Expr} (h : Parser.atom? token = some value) :
    token.kind.isSeparator = false ∧ UnaryOp.ofToken? token.kind = none ∧
      token.kind ≠ .keyword .kwIf ∧ token.kind ≠ .endOfInput := by
  unfold Parser.atom? at h
  split at h
  all_goals first | cases h; done | skip
  all_goals
    next kind =>
    rw [kind]
    exact ⟨rfl, rfl, by decide, by decide⟩

namespace Factor

variable (operand : Factor)

/-- What an operand token is by itself. -/
theorem value_bare {token : Token} {value : Expr} (h : Parser.atom? token = some value) :
    value.pieces = [.operand value] ∧ value.LeftNested ∧ value.looseness = 0 := by
  unfold Parser.atom? at h
  split at h <;> cases h
  all_goals exact ⟨rfl, trivial, rfl⟩

theorem tree_spec : operand.tree.pieces = operand.pieces ∧ operand.tree.LeftNested ∧
    operand.tree.looseness = 0 := by
  obtain ⟨signs, token, value, atom⟩ := operand
  induction signs with
  | nil => exact value_bare atom
  | cons sign signs ih =>
    obtain ⟨same, nested, bare⟩ := ih
    exact ⟨congrArg (Piece.unary sign.token.span sign.op :: ·) same, ⟨nested, bare⟩, rfl⟩

/-- The first token of an operand. -/
theorem head : ∃ first rest, operand.tokens = first :: rest ∧
    first.kind.isSeparator = false ∧ first.kind ≠ .keyword .kwIf := by
  obtain ⟨signs, token, value, atom⟩ := operand
  cases signs with
  | nil => exact ⟨token, [], rfl, (Parser.atom?_solid atom).1, (Parser.atom?_solid atom).2.2.1⟩
  | cons sign signs =>
    refine ⟨sign.token, _, rfl, ?_⟩
    rw [sign.kind]
    cases sign.op <;> decide

theorem solid : ∀ token ∈ operand.tokens, token.kind ≠ .endOfInput := by
  intro token mem
  rw [tokens, List.mem_append, List.mem_map, List.mem_singleton] at mem
  rcases mem with ⟨sign, -, rfl⟩ | rfl
  · simp [sign.kind]
  · exact (Parser.atom?_solid operand.atom).2.2.2

end Factor

theorem Chain.solid (chain : Chain) : ∀ token ∈ chain.tokens, token.kind ≠ .endOfInput := by
  intro token mem
  rw [tokens, List.mem_append, List.mem_flatMap] at mem
  rcases mem with mem | ⟨link, -, mem⟩
  · exact chain.first.solid token mem
  · rw [Link.tokens, List.mem_cons, List.mem_append] at mem
    rcases mem with rfl | mem | mem
    · simp [link.kind]
    · simp [link.newlines token mem]
    · exact link.operand.solid token mem

namespace Cursor

variable {c : Cursor} {token : Token} {rest lines : List Token}

/-- A token that is no newline is read next, inside parentheses too. -/
theorem visible_solid (split : c.rest = token :: rest) (solid : token.kind ≠ .newline) :
    c.visible = token :: rest := by
  unfold visible
  rw [split, List.dropWhile_cons_of_neg (by simpa using solid)]
  exact ite_self _

theorem current_solid (split : c.rest = token :: rest) (solid : token.kind ≠ .newline) :
    c.current = token := by
  rw [current, visible_solid split solid]
  rfl

theorem next_solid (split : c.rest = token :: rest) (solid : token.kind ≠ .newline) :
    c.next = c.behind rest := by
  rw [next, visible_solid split solid]
  rfl

theorem skipNewlines_solid (split : c.rest = lines ++ token :: rest)
    (newlines : ∀ line ∈ lines, line.kind = .newline) (solid : token.kind ≠ .newline) :
    c.skipNewlines = c.behind (token :: rest) := by
  have dropped : c.rest.dropWhile (·.kind = .newline) = token :: rest := by
    rw [split, List.dropWhile_append_of_pos (by simpa using newlines),
      List.dropWhile_cons_of_neg (by simpa using solid)]
  rw [skipNewlines, dropped]
  rfl

theorem past_solid (split : c.rest = token :: rest) (solid : token.kind ≠ .newline) :
    c.kindPastNewlines = token.kind := by
  rw [kindPastNewlines,
    skipNewlines_solid (show c.rest = [] ++ token :: rest from split) (by simp) solid]
  rfl

end Cursor

namespace Parser

open Cursor

variable {c : Cursor} {tail : List Token}

/-- An operand is read with its operators, if no selection and no argument list follows. -/
theorem unary_operand (operand : Factor) (split : c.rest = operand.tokens ++ tail)
    (call : (c.behind tail).kind ≠ .punct .openParen)
    (dot : (c.behind tail).kindPastNewlines ≠ .punct .dot) :
    ∃ p, unary c = .ok p ∧ p.value = operand.tree ∧ p.cursor = c.behind tail := by
  obtain ⟨signs, token, value, atom⟩ := operand
  induction signs generalizing c with
  | nil =>
    obtain ⟨solid, plain, -, -⟩ := atom?_solid atom
    have solid := TokenKind.ne_newline solid
    have here : c.current = token := current_solid split solid
    obtain ⟨p, read, own, cursor⟩ := primary_atom (here ▸ atom)
    have place : p.cursor = c.behind tail := cursor.trans (next_solid split solid)
    obtain ⟨q, whole, value', cursor'⟩ := postfixed_ends read (place ▸ call) (place ▸ dot)
    obtain ⟨r, last, value'', cursor''⟩ :=
      unary_of_postfixed whole (by rw [Cursor.kind, here]; exact plain)
    exact ⟨r, last, by rw [value'', value', own]; rfl, cursor''.trans (cursor'.trans place)⟩
  | cons sign signs ih =>
    have solid : sign.token.kind ≠ .newline := by simp [sign.kind]
    have here : c.current = sign.token := current_solid split solid
    have known : UnaryOp.ofToken? c.kind = some sign.op := by
      rw [Cursor.kind, here, sign.kind]
      cases sign.op <;> rfl
    have next := next_solid split solid
    have behind := (reaches_next c).behind tail
    obtain ⟨p, read, same, cursor⟩ :=
      ih (c := c.next) (behind ▸ call) (behind ▸ dot) (by rw [next]; rfl)
    unfold unary
    split
    · next op found =>
      obtain rfl : op = sign.op := by rw [known] at found; exact (Option.some.inj found).symm
      refine ⟨_, Except.bind_ok.mpr ⟨p, read, rfl⟩, ?_, cursor.trans behind⟩
      show Expr.unary c.current.span sign.op p.value = _
      rw [here, same]
      rfl
    · next none => rw [known] at none; cases none

theorem behind_self (split : c.rest = tail) : c = c.behind tail := by
  cases c
  cases split
  rfl

/-- What may stand behind an operand of a chain does not belong to the operand. -/
theorem follow_links (links : List Link) (ends : Ends (c.behind tail)) :
    (c.behind (links.flatMap Link.tokens ++ tail)).kind ≠ .punct .openParen ∧
      (c.behind (links.flatMap Link.tokens ++ tail)).kindPastNewlines ≠ .punct .dot := by
  cases links with
  | nil => exact ⟨ends.call, ends.dot⟩
  | cons link links =>
    obtain ⟨call, dot⟩ := mark_operator link.op
    let d := c.behind ((link :: links).flatMap Link.tokens ++ tail)
    have split : d.rest = link.token :: ((link.lines ++ link.operand.tokens) ++
        links.flatMap Link.tokens ++ tail) := rfl
    have solid : link.token.kind ≠ .newline := by simp [link.kind]
    rw [show d.kind = link.token.kind from congrArg Token.kind (current_solid split solid),
      past_solid split solid, link.kind]
    exact ⟨by simpa using call, by simpa using dot⟩

/-- The links up to the first looser one fall into those that bind more tightly and, from the first
of the others on, the rest. -/
theorem takeWhile_tight (tighter : Nat) (links : List Link) :
    links.takeWhile (Link.tight (tighter + 1)) = links.takeWhile (Link.tight tighter) ++
        (links.dropWhile (Link.tight tighter)).takeWhile (Link.tight (tighter + 1)) ∧
      links.dropWhile (Link.tight (tighter + 1)) =
        (links.dropWhile (Link.tight tighter)).dropWhile (Link.tight (tighter + 1)) := by
  induction links with
  | nil => exact ⟨rfl, rfl⟩
  | cons link links ih =>
    by_cases tight : link.tight tighter = true
    · have loose : link.tight (tighter + 1) = true := by
        rw [Link.tight, decide_eq_true_eq] at tight ⊢
        omega
      simpa [tight, loose] using ih
    · simp [tight]

/-- The first link that is left over is looser. -/
theorem looser_dropWhile (tighter : Nat) (links : List Link) :
    ∀ link ∈ (links.dropWhile (Link.tight tighter)).head?, tighter < link.op.looseness := by
  intro link mem
  have stops := List.head?_dropWhile_not (Link.tight tighter) links
  rw [Option.mem_def.mp mem] at stops
  simpa [Link.tight] using stops

/-- At a looseness an operand is read with the links behind it up to the first looser one. -/
def ReadsLinks (loose : Nat) (bound : loose < 7) : Prop :=
  ∀ (c : Cursor) (tail : List Token) (first : Factor) (links : List Link),
    c.rest = first.tokens ++ (links.flatMap Link.tokens ++ tail) → Ends (c.behind tail) →
    ∃ p, binary ⟨loose, bound⟩ c = .ok p ∧
      p.value.Forms loose
        (first.pieces ++ (links.takeWhile (Link.tight loose)).flatMap Link.pieces) ∧
      p.cursor = c.behind ((links.dropWhile (Link.tight loose)).flatMap Link.tokens ++ tail)

/-- The operand of a link is read with the tighter links behind it. -/
theorem right_links {tighter : Fin 6} (reads : ReadsLinks tighter.val (by omega)) (link : Link)
    (links : List Link) (split : c.rest = (link :: links).flatMap Link.tokens ++ tail)
    (ends : Ends (c.behind tail)) :
    ∃ p, (if c.next.skipNewlines.kind = .keyword .kwIf then condition c.next.skipNewlines
        else binary ⟨tighter.val, by omega⟩ c.next.skipNewlines) = .ok p ∧
      p.value.Forms tighter.val (link.operand.pieces ++
        (links.takeWhile (Link.tight tighter.val)).flatMap Link.pieces) ∧
      p.cursor =
        c.behind ((links.dropWhile (Link.tight tighter.val)).flatMap Link.tokens ++ tail) := by
  obtain ⟨first, rest, shown, solid, word⟩ := link.operand.head
  have solid := TokenKind.ne_newline solid
  let operand := link.operand.tokens ++ (links.flatMap Link.tokens ++ tail)
  have opens : operand = first :: (rest ++ (links.flatMap Link.tokens ++ tail)) := by
    show link.operand.tokens ++ _ = _
    rw [shown]
    rfl
  have mark : c.rest = link.token :: (link.lines ++ operand) := by
    rw [split]
    simp [Link.tokens, operand]
  have next : c.next = c.behind (link.lines ++ operand) :=
    next_solid mark (by simp [link.kind])
  have start : c.next.skipNewlines = c.behind operand := by
    rw [next, opens]
    exact skipNewlines_solid rfl link.newlines solid
  have kind : (c.behind operand).kind = first.kind :=
    congrArg Token.kind (current_solid opens solid)
  rw [start, if_neg (by rw [kind]; exact word)]
  exact reads _ _ link.operand links rfl ends

/-- The loop of a looseness reads the links behind a left operand up to the first looser one. -/
theorem binaryRest_links {c : Cursor} (tighter : Fin 6)
    (reads : ReadsLinks tighter.val (by omega)) (links : List Link) {left : Expr}
    {pieces : List Piece}
    (known : left.Forms (tighter.val + 1) pieces)
    (loose : ∀ link ∈ links.head?, tighter.val < link.op.looseness)
    (split : c.rest = links.flatMap Link.tokens ++ tail) (ends : Ends (c.behind tail)) :
    ∃ r, binaryRest tighter left c = .ok r ∧
      r.value.Forms (tighter.val + 1)
        (pieces ++ (links.takeWhile (Link.tight (tighter.val + 1))).flatMap Link.pieces) ∧
      r.cursor = c.behind
        ((links.dropWhile (Link.tight (tighter.val + 1))).flatMap Link.tokens ++ tail) := by
  cases links with
  | nil =>
    have place := behind_self (show c.rest = tail from split)
    have none := ends.operator
    rw [← place] at none
    obtain ⟨r, stops, value, cursor⟩ := binaryRest_ends tighter left (loose_of_none none)
    exact ⟨r, stops, by simpa [value] using known, cursor.trans place⟩
  | cons link links =>
    have loose : tighter.val < link.op.looseness := loose link rfl
    have here : c.current = link.token := current_solid split (by simp [link.kind])
    have operator : BinaryOp.ofToken? c.kind = some link.op := by
      rw [Cursor.kind, here, link.kind, BinaryOp.ofToken?_mark]
    by_cases own : link.op.looseness = tighter.val + 1
    · obtain ⟨right, read, formed, place⟩ := right_links reads link links split ends
      obtain ⟨taken, dropped⟩ := takeWhile_tight tighter.val links
      have joined : (Expr.binary c.current.span link.op left right.value).Forms (tighter.val + 1)
          (pieces ++ (link.pieces ++
            (links.takeWhile (Link.tight tighter.val)).flatMap Link.pieces)) := by
        refine ⟨?_, ⟨known.nested, formed.nested, known.within.trans own.ge, ?_⟩, own.le⟩
        · rw [Expr.pieces, known.pieces, formed.pieces, here]
          rfl
        · have := formed.within
          omega
      have behind : right.cursor.behind tail = c.behind tail := by rw [place]; rfl
      have shorter := (links.dropWhile_sublist (Link.tight tighter.val)).length_le
      obtain ⟨whole, more, forms, cursor⟩ := binaryRest_links (c := right.cursor) tighter reads
        (links.dropWhile (Link.tight tighter.val)) joined (looser_dropWhile _ links)
        (by rw [place]; rfl) (behind ▸ ends)
      have tight : link.tight (tighter.val + 1) = true := by
        rw [Link.tight, decide_eq_true_eq]
        exact own.le
      rw [List.takeWhile_cons_of_pos tight, List.dropWhile_cons_of_pos tight, taken, dropped]
      unfold binaryRest
      split
      · next none => rw [operator] at none; cases none
      · next op found =>
        obtain rfl : op = link.op := by
          rw [operator] at found
          exact (Option.some.inj found).symm
        refine ⟨_, (if_pos own).trans (Except.bind_ok.mpr ⟨right, read,
          Except.bind_ok.mpr ⟨whole, more, rfl⟩⟩), ?_, ?_⟩
        · simpa using forms
        · exact cursor.trans (by rw [place]; rfl)
    · -- the link is left to a looser loop
      have stays : Loose (tighter.val + 1) c := by
        intro op found
        rw [operator] at found
        obtain rfl := Option.some.inj found
        omega
      obtain ⟨r, stops, value, cursor⟩ := binaryRest_ends tighter left stays
      have looser : ¬ link.tight (tighter.val + 1) = true := by
        rw [Link.tight, decide_eq_true_eq]
        omega
      rw [List.takeWhile_cons_of_neg looser, List.dropWhile_cons_of_neg looser]
      exact ⟨r, stops, by simpa [value] using known, cursor.trans (behind_self split)⟩
termination_by links.length
decreasing_by subst_vars; simp only [List.length_cons]; omega

theorem binary_links : (loose : Nat) → (bound : loose < 7) → ReadsLinks loose bound
  | 0, bound => by
    intro c tail first links split ends
    obtain ⟨call, dot⟩ := follow_links links ends
    obtain ⟨p, read, value, cursor⟩ := unary_operand first split call dot
    obtain ⟨same, nested, bare⟩ := first.tree_spec
    have none : links.takeWhile (Link.tight 0) = [] ∧ links.dropWhile (Link.tight 0) = links := by
      cases links with
      | nil => exact ⟨rfl, rfl⟩
      | cons link links => simp [Link.tight, Nat.ne_of_gt link.op.looseness_pos]
    rw [none.1, none.2]
    refine ⟨p, by unfold binary; exact read, ?_, cursor⟩
    rw [value]
    exact ⟨by simpa using same, nested, bare.le⟩
  | tighter + 1, bound => by
    intro c tail first links split ends
    have reads := binary_links tighter (by omega)
    obtain ⟨left, read, formed, place⟩ := reads c tail first links split ends
    have behind : left.cursor.behind tail = c.behind tail := by rw [place]; rfl
    obtain ⟨whole, more, forms, cursor⟩ := binaryRest_links (c := left.cursor) ⟨tighter, by omega⟩
      reads (links.dropWhile (Link.tight tighter))
      ⟨formed.pieces, formed.nested, formed.within.trans (Nat.le_succ _)⟩
      (looser_dropWhile tighter links) (by rw [place]; rfl) (behind ▸ ends)
    obtain ⟨taken, dropped⟩ := takeWhile_tight tighter links
    rw [taken, dropped]
    unfold binary
    refine ⟨_, Except.bind_ok.mpr ⟨left, read, Except.bind_ok.mpr ⟨whole, more, rfl⟩⟩, ?_, ?_⟩
    · simpa using forms
    · exact cursor.trans (by rw [place]; rfl)

end Parser

/-- Tokens in front of ends of the input are all read from the start. -/
theorem Cursor.ofTokens_solid {front ending : List Token}
    (solid : ∀ token ∈ front, token.kind ≠ .endOfInput)
    (stops : ∀ token ∈ ending, token.kind = .endOfInput) :
    ∃ tail final, ∃ ends : final.kind = .endOfInput,
      ofTokens (front ++ ending) = ⟨front ++ tail, final, 0, ends⟩ ∧
      ∀ token ∈ tail, token.kind = .endOfInput := by
  rcases List.eq_nil_or_concat ending with rfl | ⟨tail, last, rfl⟩
  · refine ⟨[], .noEnd, rfl, ?_, by simp⟩
    unfold ofTokens
    rw [List.append_nil]
    split
    · next none => rw [List.getLast?_eq_none_iff.mp none]
    · next last found => exact dif_neg (solid last (List.mem_of_getLast? found))
  · rw [List.concat_eq_append] at stops ⊢
    have kind : last.kind = .endOfInput := stops last (by simp)
    refine ⟨tail, last, kind, ?_, fun token mem => stops token (by simp [mem])⟩
    simp [ofTokens, ← List.append_assoc, kind]

/-- Where only ends of the input are left, the input ends. -/
theorem Cursor.ends_of_stops {c : Cursor} (outside : c.depth = 0)
    (stops : ∀ token ∈ c.rest, token.kind = .endOfInput) :
    Ends c ∧ c.skipSeparators.kind = .endOfInput := by
  have stay : c.skipSeparators = c ∧ c.skipNewlines = c := by
    obtain ⟨rest, final, depth, ends⟩ := c
    cases rest with
    | nil => exact ⟨rfl, rfl⟩
    | cons token rest =>
      have kind : token.kind = .endOfInput := stops token (by simp)
      simp [skipSeparators, skipNewlines, kind, TokenKind.isSeparator]
  have first : (c.rest.headD c.final).kind = .endOfInput := by
    cases split : c.rest with
    | nil => exact c.ends
    | cons token rest => exact stops token (by simp [split])
  have kind : c.kind = .endOfInput := by
    rw [Cursor.kind, current, visible, if_pos outside]
    exact first
  refine ⟨⟨by rw [kind]; rfl, by simp [kind], ?_⟩, by rw [stay.1, kind]⟩
  rw [kindPastNewlines, stay.2, first]
  simp

/-- A chain is an expression, and its tree is the only left-nested one with its operators and
operands in their order. -/
theorem parseExpr_chain (chain : Chain) (ending : List Token)
    (stops : ∀ token ∈ ending, token.kind = .endOfInput) :
    ∃ tree, parseExpr (chain.tokens ++ ending) = .ok tree ∧
      tree.pieces = chain.pieces ∧ tree.LeftNested ∧
      ∀ other : Expr, other.pieces = chain.pieces → other.LeftNested → other = tree := by
  obtain ⟨tail, final, ends, start, left⟩ := Cursor.ofTokens_solid (chain.solid) stops
  let c : Cursor := ⟨chain.tokens ++ tail, final, 0, ends⟩
  obtain ⟨first, rest, shown, solid, word⟩ := chain.first.head
  have opens : c.rest = first :: (rest ++ chain.links.flatMap Link.tokens ++ tail) := by
    show chain.tokens ++ tail = _
    rw [Chain.tokens, shown]
    simp
  have stay : c.skipSeparators = c := by
    rw [Cursor.skipSeparators, opens, List.dropWhile_cons_of_neg (by simp [solid]), ← opens]
  have kind : c.kind = first.kind :=
    congrArg Token.kind (Cursor.current_solid opens (TokenKind.ne_newline solid))
  have tight : ∀ link ∈ chain.links, Link.tight 6 link = true := fun link _ =>
    decide_eq_true link.op.looseness_le
  have behind : Cursor.Ends (c.behind tail) ∧ (c.behind tail).skipSeparators.kind = .endOfInput :=
    Cursor.ends_of_stops rfl left
  obtain ⟨p, read, forms, cursor⟩ := Parser.binary_links 6 (by decide) c tail chain.first
    chain.links (by simp [c, Chain.tokens]) behind.1
  have taken : chain.links.takeWhile (Link.tight 6) = chain.links :=
    List.takeWhile_eq_self_iff.mpr tight
  have dropped : chain.links.dropWhile (Link.tight 6) = [] :=
    List.dropWhile_eq_nil_iff.mpr tight
  rw [taken] at forms
  rw [dropped] at cursor
  refine ⟨p.value, ?_, forms.pieces, forms.nested, fun other same nested =>
    nested.unique forms.nested (same.trans forms.pieces.symm)⟩
  unfold parseExpr
  rw [start, stay, Parser.expr_eq, if_neg (by rw [kind]; exact word)]
  exact Except.bind_ok.mpr ⟨p, read, if_pos (cursor ▸ behind.2)⟩

/-- `- ! a * b +`, a line end, and `3 == c && d`. -/
def Chain.mixed : Chain where
  first := ⟨
    [⟨⟨.punct .minus, "-", .anywhere⟩, .neg, rfl⟩, ⟨⟨.punct .not, "!", .anywhere⟩, .not, rfl⟩],
    ⟨.identifier, "a", .anywhere⟩, .name .anywhere "a", rfl⟩
  links := [
    ⟨⟨.punct .star, "*", .anywhere⟩, .mul, rfl, [], by simp,
      ⟨[], ⟨.identifier, "b", .anywhere⟩, .name .anywhere "b", rfl⟩⟩,
    ⟨⟨.punct .plus, "+", .anywhere⟩, .add, rfl, [⟨.newline, "", .anywhere⟩], by simp,
      ⟨[], ⟨.number, "3", .anywhere⟩, .int .anywhere 3, rfl⟩⟩,
    ⟨⟨.punct .equal, "==", .anywhere⟩, .equal, rfl, [], by simp,
      ⟨[], ⟨.identifier, "c", .anywhere⟩, .name .anywhere "c", rfl⟩⟩,
    ⟨⟨.punct .and, "&&", .anywhere⟩, .and, rfl, [], by simp,
      ⟨[], ⟨.identifier, "d", .anywhere⟩, .name .anywhere "d", rfl⟩⟩]

theorem parseExpr_chain_mixed :
    parseExpr (Chain.mixed.tokens ++ [.noEnd]) = .ok
      (.binary .anywhere .and
        (.binary .anywhere .equal
          (.binary .anywhere .add
            (.binary .anywhere .mul
              (.unary .anywhere .neg (.unary .anywhere .not (.name .anywhere "a")))
              (.name .anywhere "b"))
            (.int .anywhere 3))
          (.name .anywhere "c"))
        (.name .anywhere "d")) := by
  obtain ⟨tree, read, -, -, only⟩ := parseExpr_chain Chain.mixed [.noEnd] (by simp [Token.noEnd])
  rw [read]
  refine congrArg Except.ok (only _ rfl ?_).symm
  simp [Expr.LeftNested, Expr.looseness, BinaryOp.looseness]

end ScriptShell
