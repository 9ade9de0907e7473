import ScriptShell.Completion
import ScriptShell.Proofs.Exports.Paths
import ScriptShell.Proofs.Printing.Units
import ScriptShell.Proofs.Splitting.Coverage

/-!
Ledgers as text. The imports of a ledger are handed to the compiler, and to completion, as lines of source.
Read again, every line is one import that takes what its entry takes: a member by the last segment of a path,
a renamed member between braces, or all members. So nothing that the ledger holds is lost or redirected on
the way, and completion sees each name as its last entry left it.
-/
namespace ScriptShell

open Lexer Printer Cursor ScriptShell.Parser

namespace ImportEntry

/-- An entry that can be written down: a path of names, and in it a member with any name of its own. The name
`_` is free for the entry, not for what it stands for. -/
structure Plain (entry : ImportEntry) : Prop where
  path : ∃ segments, segments ≠ [] ∧ (∀ segment ∈ segments, IsPlain segment) ∧
    entry.path = joinPath segments
  source : entry.wildcard = false → IsPlain entry.source
  name : IsName entry.name

/-- An import takes what an entry takes. -/
structure ReadAs (entry : ImportEntry) (decl : Import) : Prop where
  path : decl.pathText = entry.path
  plain : ∀ segment ∈ decl.path, IsPlain segment
  selectors : decl.selectors = if entry.wildcard then [] else [⟨entry.source, entry.name⟩]
  wildcard : decl.wildcard = entry.wildcard

/-- What the name of an entry stands for. -/
def target (entry : ImportEntry) : String := entry.path ++ "." ++ entry.source

/-- Wildcards bind no name. -/
def binds (name : String) (entry : ImportEntry) : Bool := !entry.wildcard && entry.name = name

variable {entry : ImportEntry} {decl : Import} {name : String}

theorem ReadAs.of_unplaced (h : entry.ReadAs decl.unplaced) : entry.ReadAs decl :=
  ⟨h.path, h.plain, h.selectors, h.wildcard⟩

/-- The tokens of a path with a dot behind each segment. -/
theorem dotted_names {head : String} {rest : List String}
    (names : ∀ segment ∈ head :: rest, IsName segment) :
    dotted (head :: rest) = named head :: (further rest ++ [Punct.dot.glyph]) := by
  induction rest generalizing head with
  | nil =>
    have own : wordGlyph head.toList = named head := (names head List.mem_cons_self).glyph
    simp [dotted, own, further, Punct.glyph, Punct.text]
  | cons second rest ih =>
    have own : wordGlyph head.toList = named head := (names head List.mem_cons_self).glyph
    have others := ih fun segment mem => names segment (List.mem_cons_of_mem _ mem)
    rw [dotted, List.flatMap_cons, ← dotted, others, own]
    simp [further, Punct.glyph, Punct.text]

/-- What an entry is read as. -/
def reading (entry : ImportEntry) (head : String) (rest : List String) : Import where
  span := .anywhere
  head := head
  tail := rest
  selectors := if entry.wildcard then [] else [⟨entry.source, entry.name⟩]
  wildcard := entry.wildcard

/-- A named entry of the same name is written without braces, and like its import otherwise. -/
theorem glyphs_reading {head : String} {rest : List String} (h : entry.Plain)
    (names : ∀ segment ∈ head :: rest, IsName segment) :
    entry.glyphs (head :: rest) =
      if entry.wildcard = false ∧ entry.name = entry.source then
        Keyword.kwImport.glyph :: named head :: further (rest ++ [entry.source])
      else (entry.reading head rest).glyphs := by
  have name : wordGlyph entry.name.toList = named entry.name := h.name.glyph
  rw [glyphs, dotted_names names]
  unfold memberGlyphs
  cases wild : entry.wildcard with
  | true =>
    simp [reading, Import.glyphs, Import.taken, wild, Keyword.glyph]
    rfl
  | false =>
    have source : wordGlyph entry.source.toList = named entry.source := (h.source wild).1.glyph
    by_cases same : entry.name = entry.source
    · simp [same, source, further, Keyword.glyph]
    · simp [reading, Import.glyphs, Import.taken, Import.items, Selector.glyphs, listed, wild, same,
        name, source, Keyword.glyph, Punct.glyph, Punct.text]

theorem reading_valid {head : String} {rest : List String} (h : entry.Plain)
    (names : ∀ segment ∈ head :: rest, IsPlain segment) : (entry.reading head rest).Valid where
  head := names head List.mem_cons_self
  tail := fun segment mem => names segment (List.mem_cons_of_mem _ mem)
  selectors := by
    cases wild : entry.wildcard with
    | true => simp [reading, wild]
    | false => simpa [reading, wild] using ⟨h.source wild, h.name⟩
  takes := by
    cases wild : entry.wildcard <;> simp [reading, wild]

/-- An entry on a line is read as what it takes, if nothing stands behind it on the line. -/
theorem readsAs_reading {head : String} {rest : List String} (h : entry.Plain)
    (names : ∀ segment ∈ head :: rest, IsPlain segment) :
    ReadsAs (entry.glyphs (head :: rest)) (.imports (entry.reading head rest)) := by
  have valid := reading_valid h names
  have written := glyphs_reading h fun segment mem => (names segment mem).1
  constructor
  · exact ⟨_, _, rfl, .inr rfl⟩
  · intro c tail stands line
    have kind : c.kind = .keyword .kwImport := At.wordKind stands
    have own : Gives (importDecl c) Import.unplaced (entry.reading head rest) tail := by
      rw [written] at stands
      split at stands
      · next short =>
        obtain ⟨member, same⟩ := short
        have all : ∀ segment ∈ rest ++ [entry.source], IsPlain segment := by
          intro segment mem
          rcases List.mem_append.mp mem with own | last
          · exact valid.tail segment own
          · exact List.mem_singleton.mp last ▸ h.source member
        have read := importMember_at valid.head.2 all stands (by simp [line])
        simpa [reading, member, same] using read
      · exact importDecl_at valid stands
    obtain ⟨p, read, same, place⟩ := own
    unfold topLevel
    exact ⟨_, (if_pos kind).trans (Except.bind_ok.mpr ⟨p, read, rfl⟩),
      congrArg TopLevel.imports same, place⟩

/-- The line of an entry. -/
theorem Plain.line (h : entry.Plain) : ∃ phrase decl, Ends false entry.render.toList phrase ∧
    ReadsAs phrase (.imports decl) ∧ entry.ReadAs decl := by
  obtain ⟨segments, some, names, path⟩ := h.path
  obtain ⟨head, rest, rfl⟩ := List.exists_cons_of_ne_nil some
  obtain ⟨-, ends⟩ := entry.render_ends some (fun segment mem => (names segment mem).1.1) path
    fun member => ⟨(h.source member).1.1, h.name.1⟩
  exact ⟨_, _, ends, readsAs_reading h names, path.symm, names, rfl, rfl⟩

end ImportEntry

open ImportEntry

namespace Ledger

variable {entries : List ImportEntry} {imports : List Import}

/-- The lines of entries. -/
theorem renderLines_spells (plain : ∀ entry ∈ entries, entry.Plain) : ∃ phrases decls,
    Spells false (renderLines entries).toList (lined phrases) false ∧
      List.Forall₂ ReadsAs phrases (decls.map TopLevel.imports) ∧
      List.Forall₂ ReadAs entries decls := by
  induction entries with
  | nil => exact ⟨[], [], .nil false, .nil, .nil⟩
  | cons entry entries ih =>
    obtain ⟨phrases, decls, spells, lines, taken⟩ :=
      ih fun other mem => plain other (List.mem_cons_of_mem _ mem)
    obtain ⟨phrase, decl, ends, line, own⟩ := (plain entry List.mem_cons_self).line
    refine ⟨phrase :: phrases, decl :: decls, ?_, .cons line lines, .cons own taken⟩
    have text : (renderLines (entry :: entries)).toList =
        (entry.render.toList ++ ['\n']) ++ (renderLines entries).toList := by
      simp [renderLines]
    rw [text]
    exact ends.line.append spells

/-- The path that an import binds a name to is the target of the entry that it came from. -/
theorem bound_add {entry : ImportEntry} {decl : Import} (own : entry.ReadAs decl)
    (bindings : Completion.Bindings) (name : String) :
    ((bindings.add decl).names.lookup name).map joinPath =
      if entry.binds name then some entry.target
      else (bindings.names.lookup name).map joinPath := by
  have path : joinPath (decl.path ++ [entry.source]) = entry.target := by
    rw [joinPath_append (by simp [Import.path]) (by simp)]
    exact congrArg (· ++ "." ++ entry.source) own.path
  unfold Completion.Bindings.add binds
  rw [own.selectors]
  cases entry.wildcard with
  | true => simp
  | false =>
    by_cases same : entry.name = name
    · simp [same, path]
    · have other : (name == entry.name) = false := by simpa using Ne.symm same
      simp [same, List.lookup_cons, other]

/-- The last entry of a name wins. -/
theorem bound_imports (taken : List.Forall₂ ReadAs entries imports)
    (bindings : Completion.Bindings) (name : String) :
    ((imports.foldl Completion.Bindings.add bindings).names.lookup name).map joinPath =
      ((entries.findRev? (·.binds name)).map target).or
        ((bindings.names.lookup name).map joinPath) := by
  induction taken generalizing bindings with
  | nil => rfl
  | @cons entry decl entries imports own others ih =>
    rw [List.foldl_cons, ih, bound_add own, List.findRev?]
    cases later : entries.findRev? (·.binds name) with
    | some last => rfl
    | none => cases entry.binds name <;> simp

/-- The block of a ledger is a unit of imports, one for each entry, in order. Each takes what its entry
takes, and completion resolves every name to the target of its last entry. -/
theorem block_reads_back (ledger : Ledger) (plain : ∀ entry ∈ ledger.entries, entry.Plain) :
    ∃ tokens program, tokenize ledger.block = .ok tokens ∧ parseProgram tokens = .ok program ∧
      program.items = [] ∧ List.Forall₂ ReadAs ledger.entries program.imports ∧
      ∀ name, ((Completion.Bindings.ofText ledger.block).names.lookup name).map joinPath =
        (ledger.entries.findRev? (·.binds name)).map target := by
  obtain ⟨phrases, decls, spells, lines, taken⟩ := renderLines_spells plain
  obtain ⟨tokens, lexes, shown⟩ : ∃ tokens, tokenize ledger.block = .ok tokens ∧
      tokens.map Token.glyph = lined phrases ++ [(.endOfInput, "")] := by
    apply Fragment.tokenize_of_spell
    have whole := spells []
    rwa [List.append_nil, spell_nil] at whole
  obtain ⟨span, found, parsed, same⟩ := parseProgram_lined shown lines
  have imports : (found.filterMap TopLevel.import?).map Import.unplaced = decls := by
    rw [imports_unplaced, same]
    simp [List.filterMap_map, Function.comp_def, TopLevel.import?]
  have items : found.filterMap TopLevel.item? = [] := by
    rw [← List.map_eq_nil_iff, items_unplaced, same]
    simp [List.filterMap_map, Function.comp_def, TopLevel.item?]
  have read : List.Forall₂ ReadAs ledger.entries (found.filterMap TopLevel.import?) := by
    rw [← imports, List.forall₂_map_right_iff] at taken
    exact taken.imp fun _ _ => ReadAs.of_unplaced
  refine ⟨tokens, _, lexes, parsed, items, read, fun name => ?_⟩
  have bindings : Completion.Bindings.ofText ledger.block =
      (found.filterMap TopLevel.import?).foldl Completion.Bindings.add {} := by
    simp only [Completion.Bindings.ofText, Compiler.readSource, lexes, parsed]
  rw [bindings, bound_imports read]
  simp

/-- A member, one that is bound to `_`, all members of a module, and a second member for the first name. -/
def sampleLedger : Ledger where
  entries := [
    { name := "x", source := "x", path := "a.b" },
    { name := "_", source := "y", path := "a" },
    .all "a.b.c",
    { name := "x", source := "z", path := "d" }]

theorem block_reads_back_of_sample :
    (∀ entry ∈ sampleLedger.entries, entry.Plain) ∧
    ∃ tokens program, tokenize "import a.b.x\nimport a.\x7by => _\x7d\nimport a.b.c._\nimport d.\x7bz => x\x7d\n" =
        .ok tokens ∧ parseProgram tokens = .ok program ∧ program.items = [] ∧
      List.Forall₂ ReadAs sampleLedger.entries program.imports ∧
      ((Completion.Bindings.ofText sampleLedger.block).names.lookup "x").map joinPath = some "d.z" ∧
      ((Completion.Bindings.ofText sampleLedger.block).names.lookup "_").map joinPath = some "a.y" := by
  have plain : ∀ entry ∈ sampleLedger.entries, entry.Plain := by
    have first : Plain { name := "x", source := "x", path := "a.b" } :=
      ⟨⟨["a", "b"], by decide, by decide, rfl⟩, by decide, by decide⟩
    have second : Plain { name := "_", source := "y", path := "a" } :=
      ⟨⟨["a"], by decide, by decide, rfl⟩, by decide, by decide⟩
    have third : Plain (.all "a.b.c") :=
      ⟨⟨["a", "b", "c"], by decide, by decide, rfl⟩, by decide, by decide⟩
    have fourth : Plain { name := "x", source := "z", path := "d" } :=
      ⟨⟨["d"], by decide, by decide, rfl⟩, by decide, by decide⟩
    simp [sampleLedger, first, second, third, fourth]
  obtain ⟨tokens, program, lexes, parsed, items, read, bound⟩ := block_reads_back sampleLedger plain
  exact ⟨plain, tokens, program, lexes, parsed, items, read, bound "x", bound "_"⟩

end Ledger

end ScriptShell
