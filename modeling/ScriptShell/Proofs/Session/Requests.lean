import ScriptShell.Proofs.Registry.Operations
import ScriptShell.Proofs.Session.Evaluations

/-!
What sessions are asked for. Everything that a session does to its names and its ledger happens in
evaluations; what it does before, between and after them leaves both alone. So each request is described by
the evaluations in it, and an invariant that evaluations keep holds of every session that comes about.
-/
namespace ScriptShell

open Lexer Fragment

namespace Session

/-- The same names, the same code and the same ledger, under the same setup. -/
structure Kept (before after : Session) : Prop where
  config : after.config = before.config
  ledger : after.ledger = before.ledger
  table : after.compiler.table = before.compiler.table
  code : before.registry.SameCode after.registry

theorem Kept.refl (session : Session) : session.Kept session := ⟨rfl, rfl, rfl, .refl _⟩

theorem Kept.modifyMachine (session : Session) (f : Machine → Machine) :
    session.Kept (session.modifyMachine f) := ⟨rfl, rfl, rfl, .refl _⟩

theorem Kept.trans {before between after : Session} (first : before.Kept between)
    (second : between.Kept after) : before.Kept after :=
  ⟨second.config.trans first.config, second.ledger.trans first.ledger, second.table.trans first.table,
    first.code.trans second.code⟩

end Session

/-- An evaluation: a session that is about to wrap declarations under a name, and what becomes of them
outside. -/
structure Evaluation where
  session : Session
  decls : List Decl
  candidate : String
  outside : Outside

namespace Evaluation

/-- The unit that is compiled. -/
def unit (own : Evaluation) : WrappedUnit := own.session.unit own.decls own.candidate

/-- What the compiler makes of the unit. -/
def compiled (own : Evaluation) : Except Refusal CompiledUnit × Compiler :=
  own.session.compiler.compileWith own.unit.source own.outside.emission

/-- What the evaluation gives, and the session behind it. -/
def result (own : Evaluation) : Outcome String × Session :=
  own.session.evaluate own.decls own.candidate own.outside

theorem evaluates (own : Evaluation) :
    own.session.Evaluates own.unit own.outside own.result.1 own.result.2 :=
  own.session.evaluate_evaluates own.decls own.candidate own.outside

/-- The declarations are those of a text, and the name is made of the characters of a line. -/
structure Proper (own : Evaluation) : Prop where
  tidy : ∀ decl ∈ own.decls, Tidy decl
  named : IsWord (sanitize own.candidate).toList

end Evaluation

namespace Session

/-- From one session to another by evaluations, with nothing else that names and ledgers depend on. -/
inductive Passes : Session → List Evaluation → Session → Prop
  | kept {before after : Session} (kept : before.Kept after) : Passes before [] after
  | evaluate {before after : Session} {own : Evaluation} {log : List Evaluation}
      (kept : before.Kept own.session) (rest : Passes own.result.2 log after) : Passes before (own :: log) after

variable {before between after session : Session} {log more : List Evaluation}

theorem Passes.after_kept (kept : before.Kept between) (passes : Passes between log after) :
    Passes before log after := by
  cases passes with
  | kept other => exact .kept (kept.trans other)
  | evaluate other rest => exact .evaluate (kept.trans other) rest

theorem Passes.trans (first : Passes before log between) (second : Passes between more after) :
    Passes before (log ++ more) after := by
  induction first with
  | kept kept => exact second.after_kept kept
  | evaluate kept rest ih => exact .evaluate kept (ih second)

/-- The session that runs code without keeping what it prints. -/
def quiet (session : Session) : Session :=
  session.modifyMachine fun machine => { machine with context := { machine.context with sink := .discard } }

/-- The session that evaluates a text: it was counted and put into the history. -/
def taking (session : Session) (text : String) : Session :=
  { session with pending := none }.advance (session.pending.getD "" ++ text)

/-- The evaluation that running code consists of, if there is one. -/
def evaluationsOfRun (session : Session) (code wrapper : String) (outside : Outside) : List Evaluation :=
  match Fragment.parse code (lineId wrapper) with
  | .declarations decls => [⟨session.quiet, decls, wrapper, outside⟩]
  | _ => []

/-- The evaluations of a start: that of the bootstrap, and that of the predefined code behind it. -/
def evaluationsOfStart (session : Session) (outside : String → Outside) : List Evaluation :=
  session.evaluationsOfRun session.config.bootstrap "cmd-1" (outside "cmd-1") ++
    match session.run session.config.bootstrap "cmd-1" (outside "cmd-1") with
    | (.success _, after) =>
      if after.config.predef.isEmpty then []
      else after.evaluationsOfRun after.config.predef "predef" (outside "predef")
    | _ => []

/-- The evaluation of a text, if it is a fragment. -/
def evaluationsOf (session : Session) (text : String) (outside : Outside) : List Evaluation :=
  match session.reading text with
  | .declarations decls => [⟨session.taking text, decls, "cmd" ++ toString session.line, outside⟩]
  | _ => []

theorem taking_kept (session : Session) (text : String) : session.Kept (session.taking text) ∧
    (session.taking text).line = session.line + 1 := by
  have advanced := advance_advanced { session with pending := none } (session.pending.getD "" ++ text)
  refine ⟨⟨?_, advanced.ledger, advanced.table, advanced.code⟩, advanced.line⟩
  unfold taking advance
  dsimp only
  split
  · rfl
  · split <;> rfl

/-- A fragment is evaluated. -/
theorem process_of_declarations {text : String} {decls : List Decl} (outside : Outside)
    (read : session.reading text = .declarations decls) :
    session.process text outside =
      (session.taking text).evaluate decls ("cmd" ++ toString session.line) outside := by
  unfold process
  dsimp only
  rw [show Fragment.parse (session.pending.getD "" ++ text) (toString session.line) = _ from read]
  rfl

theorem process_passes (session : Session) (text : String) (outside : Outside) :
    Passes session (session.evaluationsOf text outside) (session.process text outside).2 ∧
      (session.process text outside).2.line = session.line + (session.evaluationsOf text outside).length := by
  unfold evaluationsOf
  cases read : session.reading text with
  | declarations decls =>
    rw [process_of_declarations outside read]
    obtain ⟨kept, line⟩ := session.taking_kept text
    have same := (evaluate_evaluates (session.taking text) decls ("cmd" ++ toString session.line) outside).line
    exact ⟨.evaluate kept (.kept (.refl _)), same.trans line⟩
  | incomplete _ | blank | malformed _ =>
    have parsed : Fragment.parse (session.pending.getD "" ++ text) (toString session.line) = _ := read
    unfold process
    simp only [parsed]
    exact ⟨.kept ⟨rfl, rfl, rfl, .refl _⟩, rfl⟩

theorem run_passes (session : Session) (code wrapper : String) (outside : Outside) :
    Passes session (session.evaluationsOfRun code wrapper outside) (session.run code wrapper outside).2 ∧
      (session.run code wrapper outside).2.line = session.line := by
  unfold evaluationsOfRun run
  cases Fragment.parse code (lineId wrapper) with
  | declarations decls =>
    have same := (evaluate_evaluates session.quiet decls wrapper outside).line
    have silent : session.Kept session.quiet := .modifyMachine session _
    dsimp only
    exact ⟨.evaluate silent (.kept (.modifyMachine _ _)), same⟩
  | incomplete _ | blank | malformed _ => exact ⟨.kept (.refl _), rfl⟩

theorem start_passes (session : Session) (outside : String → Outside) :
    Passes session (session.evaluationsOfStart outside) (session.start outside).2 ∧
      (session.start outside).2.line = session.line := by
  have first := run_passes session session.config.bootstrap "cmd-1" (outside "cmd-1")
  unfold evaluationsOfStart start
  generalize session.run session.config.bootstrap "cmd-1" (outside "cmd-1") = result at first
  obtain ⟨outcome, after⟩ := result
  cases outcome with
  | success value =>
    dsimp only at first ⊢
    split
    · rw [List.append_nil]
      exact first
    · have second := run_passes after after.config.predef "predef" (outside "predef")
      exact ⟨first.1.trans second.1, second.2.trans first.2⟩
  | failure _ | exit | skip | buffer _ =>
    rw [List.append_nil]
    exact first

/-- What may be asked of a session besides taking in a text. -/
inductive Request where
  | setShared (enabled : Bool) (outside : String → Outside)
  | addPaths (tier : Tier) (paths : List String)
  | addLibraries (tier : Tier) (coordinates : List String)
  | takeOutput
  | takeWarnings
  | interrupt
  | onStop (hook : String)
  | stop
  /-- Others change the files. -/
  | setFiles (files : Files)

/-- The session behind a request. -/
def perform (session : Session) : Request → Session
  | .setShared enabled outside => (session.setShared enabled outside).2
  | .addPaths tier paths => (session.addPaths tier paths).2
  | .addLibraries tier coordinates => (session.addLibraries tier coordinates).2
  | .takeOutput => session.takeOutput.2
  | .takeWarnings => session.takeWarnings.2
  | .interrupt => session.interrupt
  | .onStop hook => session.onStop hook
  | .stop => session.stop.2
  | .setFiles files => session.modifyBench ({ · with files })

/-- A session that starts anew over a registry. -/
def anew (session : Session) (registry : Registry) : Session :=
  { session.setRegistry registry with
    ledger := {}, sources := [], unfinished := []
    compiler := (session.setRegistry registry).compiler.reset }

theorem setShared_of_false {session : Session} {enabled : Bool} {registry : Registry} (outside : String → Outside)
    (same : session.registry.setShared enabled = (false, registry)) :
    (session.setShared enabled outside).2 = session.setRegistry registry := by
  unfold setShared
  rw [same]

theorem setShared_of_true {session : Session} {enabled : Bool} {registry : Registry} (outside : String → Outside)
    (same : session.registry.setShared enabled = (true, registry)) :
    (session.setShared enabled outside).2 = ((session.anew registry).start outside).2 := by
  unfold setShared
  rw [same]
  rfl

/-- A switch of the mode leaves a session as it is, or drops all code and starts the session anew. -/
theorem perform_setShared (session : Session) (enabled : Bool) (outside : String → Outside) :
    ((session.registry.setShared enabled).1 = false ∧
      session.Kept (session.perform (.setShared enabled outside)) ∧
      (session.perform (.setShared enabled outside)).line = session.line) ∨
    ∃ registry, session.registry.setShared enabled = (true, registry) ∧ registry.artifacts = [] ∧
      session.perform (.setShared enabled outside) = ((session.anew registry).start outside).2 := by
  show _ ∧ session.Kept (session.setShared enabled outside).2 ∧
      (session.setShared enabled outside).2.line = session.line ∨
    ∃ registry, _ ∧ _ ∧ (session.setShared enabled outside).2 = ((session.anew registry).start outside).2
  rcases session.registry.setShared_cases enabled with ⟨-, same⟩ | ⟨-, -, -, same⟩ | ⟨-, -, same⟩
  · rw [setShared_of_false outside same]
    exact .inl ⟨congrArg Prod.fst same, ⟨rfl, rfl, rfl, .refl _⟩, rfl⟩
  · rw [setShared_of_false outside same]
    exact .inl ⟨congrArg Prod.fst same, ⟨rfl, rfl, rfl, ⟨rfl, rfl⟩⟩, rfl⟩
  · exact .inr ⟨_, same, rfl, setShared_of_true outside same⟩

theorem addPaths_kept (session : Session) (tier : Tier) (paths : List String) :
    session.Kept (session.addPaths tier paths).2 ∧ (session.addPaths tier paths).2.line = session.line := by
  refine ⟨⟨rfl, rfl, rfl, ?_, ?_⟩, rfl⟩
  · show (session.registry.addPaths session.files tier paths).2.artifacts = _
    rw [Registry.addPaths_eq]
    split <;> rfl
  · exact congrArg (Array.map (·.artifact)) (Registry.images_addPaths _ _ _ _)

/-- Any other request leaves a session as it is. -/
theorem perform_kept (session : Session) {request : Request}
    (other : ∀ enabled outside, request ≠ .setShared enabled outside) :
    session.Kept (session.perform request) ∧ (session.perform request).line = session.line := by
  cases request with
  | setShared enabled outside => exact absurd rfl (other enabled outside)
  | addPaths tier paths => exact addPaths_kept session tier paths
  | addLibraries tier coordinates =>
    show session.Kept (session.addLibraries tier coordinates).2 ∧
      (session.addLibraries tier coordinates).2.line = session.line
    unfold addLibraries
    split
    · exact ⟨.refl _, rfl⟩
    · exact addPaths_kept session tier _
  | takeOutput | takeWarnings | interrupt | onStop | stop | setFiles =>
    exact ⟨⟨rfl, rfl, rfl, ⟨rfl, rfl⟩⟩, rfl⟩

end Session

section Proper

theorem isLine_of_named {wrapper : String} (named : IsWord (sanitize wrapper).toList) : IsLine wrapper := by
  intro c among
  by_cases dash : c = '-'
  · exact .inl dash
  · have own : c ∈ (sanitize wrapper).toList := by
      rw [sanitize, String.toList_ofList]
      exact List.mem_map.mpr ⟨c, among, if_neg dash⟩
    exact .inr (named.letters c own)

theorem isLine_lineId {wrapper : String} (line : IsLine wrapper) : IsLine (Session.lineId wrapper) := by
  unfold Session.lineId
  split
  next c rest split =>
    intro other among
    rw [String.toList_ofList] at among
    exact line other (by rw [split]; simp [List.mem_cons.mp among])
  next => exact line

theorem letters_toString (n : Nat) : ∀ c ∈ (toString n).toList, Ascii.isWord c = true := by
  intro c among
  have written : (toString n).toList = Nat.toDigits 10 n := by simp [toString, Nat.repr]
  rw [written] at among
  have digit : c.isDigit = true := Nat.isDigit_of_mem_toDigits (by decide) (by decide) among
  simp [Ascii.isWord, Char.isAlphanum, digit]

theorem isWord_numbered (n : Nat) : IsWord ("cmd" ++ toString n).toList := by
  rw [String.toList_append]
  exact IsWord.append (by decide) (letters_toString n)

namespace Session

variable {session : Session}

theorem proper_run {code wrapper : String} {outside : Outside} (named : IsWord (sanitize wrapper).toList) :
    ∀ own ∈ session.evaluationsOfRun code wrapper outside, own.Proper := by
  unfold evaluationsOfRun
  cases parsed : Fragment.parse code (lineId wrapper) with
  | declarations decls =>
    have tidy := parse_tidy (isLine_lineId (isLine_of_named named)) parsed
    simpa only [List.mem_singleton, forall_eq] using ⟨tidy, named⟩
  | incomplete _ | blank | malformed _ => simp

theorem proper_start {outside : String → Outside} :
    ∀ own ∈ session.evaluationsOfStart outside, own.Proper := by
  unfold evaluationsOfStart
  rw [List.forall_mem_append]
  refine ⟨proper_run (by decide), ?_⟩
  split
  · split
    · simp
    · exact proper_run (by decide)
  · simp

theorem proper_process {text : String} {outside : Outside} :
    ∀ own ∈ session.evaluationsOf text outside, own.Proper := by
  unfold evaluationsOf
  cases read : session.reading text with
  | declarations decls =>
    have tidy := parse_tidy (fun c among => .inr (letters_toString _ c among)) read
    have word := isWord_numbered session.line
    -- Only that the name is a word matters, not how it is spelled.
    generalize "cmd" ++ toString session.line = name at word ⊢
    exact List.forall_mem_singleton.mpr ⟨tidy, (sanitize_word word).symm ▸ word⟩
  | incomplete _ | blank | malformed _ => simp

end Session

end Proper

namespace Session

/-- The names of a session are words, and its ledger can be written down and read back. -/
structure Legible (session : Session) : Prop where
  table : session.compiler.table.Spelled
  ledger : ∀ entry ∈ session.ledger.entries, entry.Legible

variable {before after session : Session} {log : List Evaluation}

theorem Legible.of_kept (legible : before.Legible) (kept : before.Kept after) : after.Legible :=
  ⟨kept.table ▸ legible.table, kept.ledger ▸ legible.ledger⟩

theorem Legible.worded (legible : session.Legible) (decls : List Decl) :
    ∀ entry ∈ session.needed decls, entry.Legible :=
  fun entry listed => legible.ledger entry (List.mem_of_mem_filter listed)

end Session

/-- What a unit that was compiled hands on is made of words. -/
theorem Compiled.handed {compiler done : Compiler} {unit : WrappedUnit} {entries : List ImportEntry}
    {decls : List Decl} {output : CompiledUnit} {program : Program} {checked : Typing.CheckedUnit}
    (h : Compiled compiler unit entries decls output done program checked) :
    ∀ entry ∈ output.exports, entry.Handed := by
  intro entry listed
  rw [h.exports] at listed
  obtain ⟨typed, among, own⟩ := List.mem_flatMap.mp listed
  obtain ⟨i, small, rfl⟩ := List.getElem_of_mem (List.mem_of_mem_filter among)
  have size := h.typed.length_eq
  obtain ⟨-, members⟩ := (List.forall₂_iff_get.mp h.typed).2 i (size ▸ small) small
  have words := (h.words.items _ (List.getElem_mem (size ▸ small))).members
  exact handed_members members words entry own

/-- A proper evaluation in a legible session that compiles. -/
theorem Evaluation.compiled_ok {own : Evaluation} (proper : own.Proper) (legible : own.session.Legible)
    {output : CompiledUnit} {done : Compiler} (compiled : own.compiled = (.ok output, done)) :
    ∃ program checked, Compiled own.session.compiler own.unit (own.session.needed own.decls)
      (Wrapper.kept own.session.config.wrap own.decls) output done program checked :=
  Compiler.compile_wrapped legible.table proper.tidy proper.named
    (fun entry listed => (legible.worded own.decls entry listed).worded) compiled

/-- An evaluation leaves a legible session: whatever is recorded was handed on by a unit that was read back
as its wrapper wrote it. -/
theorem Evaluation.legible {own : Evaluation} (proper : own.Proper) (legible : own.session.Legible) :
    own.result.2.Legible := by
  have evaluates := own.evaluates
  cases answer : own.compiled with
  | mk compiled done =>
    have table : own.result.2.compiler.table = done.table :=
      evaluates.table.trans (congrArg (·.2.table) answer)
    cases compiled with
    | error refusal =>
      have refused := Compiler.compile_table_of_error (congrArg Prod.fst answer)
      rw [show own.session.compiler.compileWith _ _ = _ from answer] at refused
      have ledger := evaluates.unrecorded (evaluates.refused refusal (congrArg Prod.fst answer)).2
      exact ⟨by rw [table, refused]; exact legible.table, ledger ▸ legible.ledger⟩
    | ok output =>
      obtain ⟨program, checked, compiled⟩ := Evaluation.compiled_ok proper legible answer
      refine ⟨table ▸ compiled.spelled, ?_⟩
      by_cases ran : ∃ value, own.result.1 = .success value
      · obtain ⟨value, ran⟩ := ran
        obtain ⟨other, same, ledger⟩ := evaluates.recorded value ran
        obtain rfl : output = other := by
          have := congrArg Prod.fst answer
          exact Except.ok.inj (this.symm.trans same)
        intro entry listed
        rw [show own.result.2.ledger = _ from ledger] at listed
        rcases Ledger.mem_update listed with old | new
        · exact legible.ledger entry old
        · obtain ⟨handed, among, rfl⟩ := List.mem_map.mp new
          exact (compiled.handed handed (List.mem_of_mem_drop among)).recorded
            (Wrapper.wrap_words _ proper.named).2
      · have ledger := evaluates.unrecorded (fun value same => ran ⟨value, same⟩)
        exact ledger ▸ legible.ledger

namespace Session

variable {before after session : Session} {log : List Evaluation}

/-- Evaluations one after the other leave a legible session, and each of them finds one. -/
theorem Passes.legible (passes : Passes before log after) (proper : ∀ own ∈ log, own.Proper)
    (legible : before.Legible) : after.Legible := by
  induction passes with
  | kept kept => exact legible.of_kept kept
  | evaluate kept rest ih =>
    rw [List.forall_mem_cons] at proper
    exact ih proper.2 (Evaluation.legible proper.1 (legible.of_kept kept))

theorem legible_new (config : SessionConfig) (files : Files) : (Session.new config files).Legible where
  table := ⟨fun id small => absurd small (Nat.not_lt_zero id), fun _ listed => by cases listed⟩
  ledger := fun _ listed => by cases listed

theorem legible_anew (session : Session) (registry : Registry) : (session.anew registry).Legible where
  table := ⟨fun id small => absurd small (Nat.not_lt_zero id), fun _ listed => by cases listed⟩
  ledger := fun _ listed => by cases listed

theorem Legible.perform (legible : session.Legible) (request : Request) : (session.perform request).Legible := by
  cases request with
  | setShared enabled outside =>
    rcases perform_setShared session enabled outside with ⟨-, kept, -⟩ | ⟨registry, -, -, same⟩
    · exact legible.of_kept kept
    · rw [same]
      exact (start_passes _ outside).1.legible proper_start (legible_anew session registry)
  | addPaths | addLibraries | takeOutput | takeWarnings | interrupt | onStop | stop | setFiles =>
    exact legible.of_kept (perform_kept session (by simp)).1

/-- The sessions that come about. Code may be run under any name that is made of the characters of a word,
and of `-`. -/
inductive Arises : Session → Prop
  | new (config : SessionConfig) (files : Files) : Arises (new config files)
  | start {session : Session} (outside : String → Outside) (arises : Arises session) :
      Arises (session.start outside).2
  | run {session : Session} {code wrapper : String} (outside : Outside)
      (named : IsWord (sanitize wrapper).toList) (arises : Arises session) :
      Arises (session.run code wrapper outside).2
  | process {session : Session} (text : String) (outside : Outside) (arises : Arises session) :
      Arises (session.process text outside).2
  | perform {session : Session} (request : Request) (arises : Arises session) :
      Arises (session.perform request)

/-- Every session that comes about is legible. -/
theorem Arises.legible (arises : session.Arises) : session.Legible := by
  induction arises with
  | new config files => exact legible_new config files
  | start outside _ ih => exact (start_passes _ outside).1.legible proper_start ih
  | run outside named _ ih => exact (run_passes _ _ _ outside).1.legible (proper_run named) ih
  | process text outside _ ih => exact (process_passes _ text outside).1.legible proper_process ih
  | perform request _ ih => exact ih.perform request

end Session

end ScriptShell
