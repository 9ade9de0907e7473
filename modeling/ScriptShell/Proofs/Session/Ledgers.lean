import ScriptShell.Proofs.Containment.Preambles
import ScriptShell.Proofs.Exports.Members
import ScriptShell.Proofs.Session.Frame

/-!
What the ledger of a session holds. The entries that a unit hands on are made of words, since the names and
the paths of a checked unit are; so each of them can be written down as an import in front of a later
fragment, and the containers of a wrapped unit are the ones that its wrapper writes. This goes round: the
wrapper is read back as it was written because the ledger is legible, and the ledger stays legible because
the wrapper was read back.
-/
namespace ScriptShell

open Lexer Fragment

/-- An entry as a unit hands it on, without a path if it is for a member of the unit's own. -/
structure ImportEntry.Handed (entry : ImportEntry) : Prop where
  path : entry.path = "" ∨ Dotted entry.path
  source : IsWord entry.source.toList
  name : IsWord entry.name.toList
  all : entry.wildcard = true → entry.source = "_" ∧ entry.name = "_"

/-- An entry is recorded with the full path of what it stands for. -/
theorem ImportEntry.Handed.recorded {entry : ImportEntry} (h : entry.Handed) {userPath : String}
    (path : Dotted userPath) : (Session.recorded userPath entry).Legible := by
  unfold Session.recorded
  split
  · exact ⟨⟨path, h.source, h.name⟩, h.all⟩
  · next own =>
    have front : Dotted entry.path := h.path.resolve_left (by simpa using own)
    split
    · exact ⟨⟨path.append front, h.source, h.name⟩, h.all⟩
    · exact ⟨⟨front, h.source, h.name⟩, h.all⟩

theorem handed_own {name : String} (word : IsWord name.toList) (implicit : Bool) :
    (ImportEntry.own name implicit).Handed :=
  ⟨.inl rfl, word, word, by simp [ImportEntry.own]⟩

theorem TypedImport.handed {own : TypedImport} (words : own.decl.Words) (path : Dotted own.path) :
    ∀ entry ∈ own.entries, entry.Handed := by
  intro entry listed
  rcases List.mem_append.mp listed with selected | wildcard
  · obtain ⟨⟨selector, implicit⟩, among, rfl⟩ := List.mem_map.mp selected
    obtain ⟨source, name⟩ := words.selectors selector (List.of_mem_zip among).1
    exact ⟨.inr path, source, name, by simp⟩
  · split at wildcard
    · have all : IsWord "_".toList := by decide
      rw [List.mem_singleton.mp wildcard]
      exact ⟨.inr path, all, all, fun _ => ⟨rfl, rfl⟩⟩
    · cases wildcard

/-- What a checked member hands on is made of words. -/
theorem Member.TypedAs.handed {member : Member} {typed : TypedMember} (h : member.TypedAs typed)
    (words : member.Words) : ∀ entry ∈ typed.entries, entry.Handed := by
  cases h with
  | imports flags path => exact TypedImport.handed (by simpa only [Member.Words] using words) path
  | val | func | foreign =>
    simp only [Member.Words] at words
    simpa only [TypedMember.entries, List.mem_singleton, forall_eq] using handed_own words _
  | container =>
    simp only [Member.Words] at words
    simpa only [TypedMember.entries, List.mem_singleton, forall_eq] using handed_own words.name _
  | expr => simp [TypedMember.entries]

theorem handed_members {members : List Member} {typed : List TypedMember}
    (h : List.Forall₂ Member.TypedAs members typed) (words : ∀ member ∈ members, member.Words) :
    ∀ entry ∈ typed.flatMap (·.entries), entry.Handed := by
  induction h with
  | nil => simp
  | cons own others ih =>
    rw [List.forall_mem_cons] at words
    rw [List.flatMap_cons, List.forall_mem_append]
    exact ⟨own.handed words.1, ih words.2⟩

namespace Ledger

theorem mem_place {entry other : ImportEntry} {entries : List ImportEntry}
    (listed : other ∈ place entry entries) : other = entry ∨ other ∈ entries := by
  induction entries with
  | nil => simpa [place] using listed
  | cons first rest ih =>
    unfold place at listed
    split at listed
    · exact (List.mem_cons.mp listed).imp_right (List.mem_cons_of_mem _)
    · rcases List.mem_cons.mp listed with rfl | later
      · exact .inr List.mem_cons_self
      · exact (ih later).imp_right (List.mem_cons_of_mem _)

/-- What a ledger holds is what it held before or was added. -/
theorem mem_update {ledger : Ledger} {entries : List ImportEntry} {other : ImportEntry}
    (listed : other ∈ (ledger.update entries).entries) : other ∈ ledger.entries ∨ other ∈ entries := by
  induction entries generalizing ledger with
  | nil => exact .inl listed
  | cons entry rest ih =>
    rcases ih listed with before | later
    · unfold insert at before
      dsimp only at before
      split at before
      · rcases List.mem_append.mp before with old | own
        · exact .inl old
        · exact .inr (by simp [List.mem_singleton.mp own])
      · rcases mem_place before with rfl | old
        · exact .inr List.mem_cons_self
        · exact .inl old
    · exact .inr (List.mem_cons_of_mem _ later)

end Ledger

namespace Wrapper

variable {mode : WrapMode} {decls : List Decl} {entries : List ImportEntry} {candidate : String}

theorem wrap_sanitize (preamble : String) (named : IsWord (sanitize candidate).toList) :
    wrap mode decls preamble candidate = wrap mode decls preamble (sanitize candidate) := by
  unfold wrap wrapWith
  rw [sanitize_word named]

theorem isWord_unitName (mode : WrapMode) (decls : List Decl) (named : IsWord candidate.toList) :
    IsWord (unitName mode decls candidate).toList := by
  unfold unitName
  split
  · exact isWord_special named
  · exact named

/-- A wrapper has a word as its name, and later fragments find its members under words. -/
theorem wrap_words (preamble : String) (named : IsWord (sanitize candidate).toList) :
    IsWord (wrap mode decls preamble candidate).name.toList ∧
      Dotted (wrap mode decls preamble candidate).userPath := by
  have word := isWord_unitName mode decls named
  rw [wrap_sanitize preamble named, wrap_word preamble named]
  split
  · have behind : Dotted "INSTANCE" := .word (by decide)
    have path := (Dotted.word word).append behind
    rw [String.append_assoc] at path
    exact ⟨word, path⟩
  · exact ⟨word, .word word⟩

/-- A unit that is read back has the containers of its wrapper. -/
theorem wrap_reads {program : Program} (tidy : ∀ decl ∈ decls, Tidy decl)
    (named : IsWord (sanitize candidate).toList) (worded : ∀ entry ∈ entries, entry.Worded)
    (reads : Compiler.readSource (wrap mode decls (Ledger.renderLines entries) candidate).source =
      .ok program) :
    Encloses (wrap mode decls (Ledger.renderLines entries) candidate) entries (kept mode decls) program := by
  have neat : ∀ decl ∈ kept mode decls, Tidy decl := by
    intro decl listed
    refine tidy decl ?_
    unfold kept at listed
    split at listed
    · exact List.mem_of_mem_filter listed
    · exact listed
  have word := isWord_unitName mode decls named
  obtain ⟨tokens, lexes, parses⟩ := Compiler.readSource_ok reads
  rw [wrap_sanitize _ named, wrap_word _ named] at lexes ⊢
  split at lexes
  next held =>
    rw [if_pos held]
    exact boxed_encloses word worded neat lexes parses
  next held =>
    rw [if_neg held]
    exact flat_encloses word worded neat lexes parses

end Wrapper

end ScriptShell
