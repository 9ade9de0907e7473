import ScriptShell.Syntax
import ScriptShell.Syntax.Cursor

/-!
Reading of imports: a dotted path that ends in a member, in `_` for all members, or in a list
of selectors between braces, each perhaps with an alias.
-/
namespace ScriptShell.Parser

/-- What an import takes from its path. -/
structure Selection where
  selectors : List Selector
  wildcard : Bool

/-- What two selector lists take together. -/
def Selection.append (first second : Selection) : Selection :=
  ⟨first.selectors ++ second.selectors, first.wildcard || second.wildcard⟩

/-- What a selector takes, behind its name. The name `_` stands for all members. -/
def selector (name : String) (c : Cursor) : Extend Selection c := do
  if name = "_" then return ⟨⟨[], true⟩, c, .refl c⟩
  else if c.kind = .punct .arrow then
    let bound ← c.next.skipNewlines.expectName "import alias"
    return ⟨⟨[⟨name, bound.value.lexeme⟩], false⟩, bound.cursor,
      (c.reaches_next.trans c.next.reaches_skipNewlines).trans bound.follows.reaches⟩
  else return ⟨⟨[⟨name, name⟩], false⟩, c, .refl c⟩

/-- The selectors between braces, at least one. -/
def selectorList (c : Cursor) : Parse Selection c := do
  let name ← c.expectName "import selector"
  let own ← selector name.value.lexeme name.cursor.skipNewlines
  have start := name.follows.trans (name.cursor.reaches_skipNewlines.trans own.reaches)
  have follows := start.trans own.cursor.reaches_skipNewlines
  if own.cursor.skipNewlines.kind = .punct .comma then
    have comma := own.cursor.skipNewlines.reaches_next
    have more := follows.trans (comma.trans own.cursor.skipNewlines.next.reaches_skipNewlines)
    have := more.lt
    let rest ← selectorList own.cursor.skipNewlines.next.skipNewlines
    return ⟨own.value.append rest.value, rest.cursor, more.then rest.follows⟩
  else return ⟨own.value, own.cursor.skipNewlines, follows⟩
termination_by c.left

/-- The segments of an import behind the first one, and what it takes from them. -/
def importRest (c : Cursor) : Extend (List String × Selection) c :=
  if c.kind = .punct .dot then do
    have dot := c.reaches_next
    if c.next.kind = .punct .openBrace then
      have start := (dot.trans c.next.reaches_next).trans c.next.next.reaches_skipNewlines
      let list ← selectorList c.next.next.skipNewlines
      let closing ← list.cursor.expectMark .closeBrace "'\x7d' closing import selectors"
      return ⟨([], list.value), closing.cursor,
        (start.follows (list.follows.then closing.follows)).reaches⟩
    else
      let segment ← c.next.expectName "import path segment"
      have follows := dot.follows segment.follows
      if segment.value.lexeme = "_" then
        return ⟨([], ⟨[], true⟩), segment.cursor, follows.reaches⟩
      else
        have := follows.lt
        let rest ← importRest segment.cursor
        return ⟨(segment.value.lexeme :: rest.value.1, rest.value.2), rest.cursor,
          (follows.trans rest.reaches).reaches⟩
  else return ⟨([], ⟨[], false⟩), c, .refl c⟩
termination_by c.left

/-- An import. Without selectors the last segment is the member it picks. -/
def importDecl (c : Cursor) : Parse Import c := do
  let keyword ← c.expectWord .kwImport "'import'"
  let first ← keyword.cursor.expectName "import path"
  let head := first.value.lexeme
  if head = "_" then throw (keyword.value.fail .unqualifiedImport)
  let rest ← importRest first.cursor
  have follows := (keyword.follows.then first.follows).trans rest.reaches
  let (segments, taken) := rest.value
  if taken.wildcard || !taken.selectors.isEmpty then
    return ⟨⟨keyword.value.span, head, segments, taken.selectors, taken.wildcard⟩, rest.cursor,
      follows⟩
  else
    match segments.getLast? with
    | none => throw (keyword.value.fail .unqualifiedImport)
    | some last =>
      return ⟨⟨keyword.value.span, head, segments.dropLast, [⟨last, last⟩], false⟩, rest.cursor,
        follows⟩

end ScriptShell.Parser
