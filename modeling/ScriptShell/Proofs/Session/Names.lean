import ScriptShell.Proofs.Session.Requests
import Mathlib.Data.List.Pairwise
import Mathlib.Data.List.Nodup

/-!
Names of wrappers. A session names its wrappers after the code it starts with and after the number
of each fragment, and a wrapper makes the names of its containers from that name. From the start of
a session, or from the last time it started anew, no two of these names are the same. So every
artifact that is loaded and every container that is taken over is new under its name.
-/
namespace ScriptShell

open Fragment

/-- What an evaluation is for: the code that every session runs first, the predefined code, or a
fragment. -/
inductive Slot where
  | bootstrap
  | predef
  | fragment (number : Nat)
deriving Repr, DecidableEq

namespace Slot

/-- The name that is handed to the wrapper. -/
def candidate : Slot → String
  | .bootstrap => "cmd-1"
  | .predef => "predef"
  | .fragment number => "cmd" ++ toString number

/-- What it is for is over: the session was started, or the fragment was counted. -/
def Past (started : Bool) (line : Nat) : Slot → Prop
  | .bootstrap | .predef => started = true
  | .fragment number => number < line

/-- The letters behind the first one of the sanitized name. -/
def mark : Slot → List Char
  | .bootstrap => "md_1".toList
  | .predef => "redef".toList
  | .fragment number => 'm' :: 'd' :: (toString number).toList

theorem mark_fragment (number : Nat) :
    (Slot.fragment number).mark = 'm' :: 'd' :: (toString number).toList := rfl

theorem mark_injective {slot other : Slot} (same : slot.mark = other.mark) : slot = other := by
  have digits (number : Nat) : (toString number).toList ≠ ['_', '1'] := fun written => by
    rw [Nat.toString_eq_ofList_toDigits, String.toList_ofList] at written
    have letter : '_' ∈ Nat.toDigits 10 number := written ▸ List.mem_cons_self
    have digit : ('_').isDigit = true := Nat.isDigit_of_mem_toDigits (by decide) (by decide) letter
    cases digit
  cases slot with
  | bootstrap =>
    cases other with
    | bootstrap => rfl
    | predef => exact absurd same (by decide)
    | fragment number => exact absurd (List.cons.inj (List.cons.inj same).2).2.symm (digits number)
  | predef =>
    cases other with
    | bootstrap => exact absurd same (by decide)
    | predef => rfl
    | fragment number => exact absurd (List.cons.inj same).1 (by decide)
  | fragment number =>
    cases other with
    | bootstrap => exact absurd (List.cons.inj (List.cons.inj same).2).2 (digits number)
    | predef => exact absurd (List.cons.inj same).1 (by decide)
    | fragment another =>
      exact congrArg fragment (toString_nat_inj (List.cons.inj (List.cons.inj same).2).2)

end Slot

namespace Wrapper

/-- The names that a wrapper takes on for a candidate: in a session that wraps into instances, a
unit that escapes has one of its own. -/
def stems (candidate : String) : List String :=
  [sanitize candidate, "specialObj" ++ capitalize (sanitize candidate)]

theorem wrap_name (mode : WrapMode) (decls : List Decl) (preamble candidate : String) :
    (wrap mode decls preamble candidate).name ∈ stems candidate := by
  unfold wrap wrapWith
  cases mode with
  | object => exact List.mem_cons_self
  | boxed =>
    dsimp only
    split
    · exact List.mem_cons_of_mem _ List.mem_cons_self
    · exact List.mem_cons_self

/-- What is left of a wrapper's name without its first letter, and without the front of a unit that
escapes. -/
def unmark : List Char → List Char
  | 's' :: rest => rest.drop 10
  | letters => letters.tail

/-- A wrapper's name tells what it is for, and it is made of letters and digits. -/
theorem stems_mark (slot : Slot) :
    ∀ stem ∈ stems slot.candidate, unmark stem.toList = slot.mark ∧ '$' ∉ stem.toList := by
  cases slot with
  | bootstrap => decide
  | predef => decide
  | fragment number =>
    have free : '$' ∉ (toString number).toList := fun among => by
      rw [Nat.toString_eq_ofList_toDigits, String.toList_ofList] at among
      have digit : ('$').isDigit = true := Nat.isDigit_of_mem_toDigits (by decide) (by decide) among
      cases digit
    have small : ("cmd" ++ toString number).toList = 'c' :: 'm' :: 'd' :: (toString number).toList := by
      rw [String.toList_append]
      rfl
    have large : ("specialObj" ++ capitalize ("cmd" ++ toString number)).toList =
        "specialObj".toList ++ 'C' :: 'm' :: 'd' :: (toString number).toList := by
      rw [String.toList_append, capitalize, small]
      exact congrArg _ String.toList_ofList
    rw [stems, show sanitize (Slot.fragment number).candidate = "cmd" ++ toString number from
      sanitize_word (isWord_numbered number)]
    simp only [List.mem_cons, List.not_mem_nil, or_false, forall_eq_or_imp, forall_eq, small, large,
      Slot.mark_fragment, List.mem_append, free]
    exact ⟨⟨rfl, by decide⟩, ⟨rfl, by decide⟩⟩

end Wrapper

/-- The names of a unit begin with the name of its wrapper, up to the first dollar sign. -/
theorem WrappedUnit.names_stem {unit : WrappedUnit} (free : '$' ∉ unit.name.toList) :
    ∀ name ∈ unit.names, name.toList.takeWhile (· ≠ '$') = unit.name.toList := by
  have whole : ∀ c ∈ unit.name.toList, decide (c ≠ '$') = true := fun c among => by
    rw [decide_eq_true_eq]
    rintro rfl
    exact free among
  have own : unit.name.toList.takeWhile (· ≠ '$') = unit.name.toList :=
    List.takeWhile_eq_self_iff.mpr whole
  have suffixed (suffix : String) (dollar : suffix.toList.head? = some '$') :
      (unit.name ++ suffix).toList.takeWhile (· ≠ '$') = unit.name.toList := by
    obtain ⟨rest, split⟩ := List.head?_eq_some_iff.mp dollar
    rw [String.toList_append, List.takeWhile_append_of_pos whole, split]
    simp
  unfold WrappedUnit.names WrappedUnit.titles
  split
  · simp only [List.map_cons, List.map_nil, List.mem_cons, List.not_mem_nil, or_false,
      forall_eq_or_imp, forall_eq]
    exact ⟨suffixed _ rfl, own, suffixed _ rfl⟩
  · simp only [List.map_cons, List.map_nil, List.mem_cons, List.not_mem_nil, or_false,
      forall_eq_or_imp, forall_eq]
    exact ⟨suffixed _ rfl, own⟩

/-- Evaluations for different things have units without a common name. -/
theorem Evaluation.names_disjoint {own other : Evaluation} {slot another : Slot}
    (first : own.candidate = slot.candidate) (second : other.candidate = another.candidate)
    (differ : slot ≠ another) : own.unit.names.Disjoint other.unit.names := by
  intro name mine yours
  have named : own.unit.name ∈ Wrapper.stems slot.candidate := first ▸ Wrapper.wrap_name _ _ _ _
  have called : other.unit.name ∈ Wrapper.stems another.candidate := second ▸ Wrapper.wrap_name _ _ _ _
  obtain ⟨marked, free⟩ := Wrapper.stems_mark slot _ named
  obtain ⟨noted, plain⟩ := Wrapper.stems_mark another _ called
  have same : own.unit.name.toList = other.unit.name.toList :=
    (WrappedUnit.names_stem free name mine).symm.trans (WrappedUnit.names_stem plain name yours)
  exact differ (Slot.mark_injective (marked.symm.trans ((congrArg Wrapper.unmark same).trans noted)))

namespace Registry

/-- Artifacts with new names that differ are each added under a new name. -/
theorem addAll_fresh {registry : Registry} {artifacts : List Artifact} (files : Files)
    (distinct : (artifacts.map (·.name)).Nodup)
    (fresh : ∀ artifact ∈ artifacts, artifact.name ∉ registry.artifactNames)
    {front back : List Artifact} {artifact : Artifact} (split : artifacts = front ++ artifact :: back) :
    (registry.addAll files front).hasArtifact artifact.name = false := by
  subst split
  rw [Bool.eq_false_iff]
  intro found
  rcases mem_addAll (hasArtifact_iff.mp found) with earlier | present
  · rw [List.map_append, List.map_cons] at distinct
    exact List.disjoint_of_nodup_append distinct earlier List.mem_cons_self
  · exact fresh artifact (by simp) present

end Registry

namespace SymbolTable

theorem mem_of_find? {table : SymbolTable} {name : String} {id : ContainerId}
    (found : table.find? name = some id) : (name, id) ∈ table.globals := mem_of_lookup found

/-- Containers with new names that differ are each taken over under a new name. -/
theorem commit_fresh {table : SymbolTable} {symbols : Symbols} {ids : List ContainerId}
    (distinct : (ids.map fun id => (symbols.get id).name).Nodup)
    (fresh : ∀ id ∈ ids, table.find? (symbols.get id).name = none)
    {front back : List ContainerId} {id : ContainerId} (split : ids = front ++ id :: back) :
    (table.commit symbols front).find? (symbols.get id).name = none := by
  subst split
  rw [List.map_append, List.map_cons] at distinct
  rw [find?_commit, fresh id (by simp)]
  intro other among same
  exact List.disjoint_of_nodup_append distinct (List.mem_map_of_mem among) (same ▸ List.mem_cons_self)

end SymbolTable

/-- What an evaluation brings is new: its containers have names of their own, and none of its
artifacts and of its containers takes the place of another one. -/
structure Evaluation.Fresh (own : Evaluation) : Prop where
  artifacts : ∀ output, own.compiled.1 = .ok output →
    output.artifacts.map (·.name) = own.unit.names ∧
    ∀ front artifact back, output.artifacts = front ++ artifact :: back →
      (own.compiled.2.bench.registry.addAll own.session.files front).hasArtifact artifact.name = false
  containers : ∀ output, own.compiled.1 = .ok output →
    ∃ symbols ids, ids.map (fun id => (symbols.get id).name) = own.unit.names ∧
      own.compiled.2.table = own.session.compiler.table.commit symbols ids ∧
      ∀ front id back, ids = front ++ id :: back →
        (own.session.compiler.table.commit symbols front).find? (symbols.get id).name = none
  kept : ∀ name id, own.session.compiler.table.find? name = some id →
    own.result.2.compiler.table.find? name = some id

/-- All names that a session knows were brought by the given evaluations. -/
structure Session.Covered (session : Session) (log : List Evaluation) : Prop where
  artifacts : ∀ name ∈ session.registry.artifactNames, ∃ own ∈ log, name ∈ own.unit.names
  containers : ∀ entry ∈ session.compiler.table.globals, ∃ own ∈ log, entry.1 ∈ own.unit.names

namespace Session

variable {before after session : Session} {log earlier : List Evaluation}

theorem Covered.of_kept (covered : before.Covered log) (kept : before.Kept after) : after.Covered log where
  artifacts name listed := by
    rw [Registry.artifactNames, kept.code.artifacts] at listed
    exact covered.artifacts name listed
  containers := kept.table ▸ covered.containers

theorem Covered.append (covered : session.Covered earlier) (more : List Evaluation) :
    session.Covered (earlier ++ more) where
  artifacts name listed :=
    (covered.artifacts name listed).imp fun _ own => ⟨List.mem_append_left _ own.1, own.2⟩
  containers entry listed :=
    (covered.containers entry listed).imp fun _ own => ⟨List.mem_append_left _ own.1, own.2⟩

/-- A name that no evaluation brought is no artifact's and no container's. -/
theorem Covered.absent (covered : session.Covered earlier) {own : Evaluation}
    (apart : ∀ old ∈ earlier, old.unit.names.Disjoint own.unit.names) {name : String}
    (listed : name ∈ own.unit.names) :
    name ∉ session.registry.artifactNames ∧ session.compiler.table.find? name = none := by
  refine ⟨fun present => ?_, ?_⟩
  · obtain ⟨old, among, named⟩ := covered.artifacts name present
    exact apart old among named listed
  · cases found : session.compiler.table.find? name with
    | none => rfl
    | some id =>
      obtain ⟨old, among, named⟩ := covered.containers _ (SymbolTable.mem_of_find? found)
      exact absurd listed (apart old among named)

end Session

/-- An evaluation whose names no earlier one brought brings what is new, and nothing else. -/
theorem Evaluation.fresh {own : Evaluation} {earlier : List Evaluation} (proper : own.Proper)
    (legible : own.session.Legible) (covered : own.session.Covered earlier)
    (apart : ∀ old ∈ earlier, old.unit.names.Disjoint own.unit.names) :
    own.Fresh ∧ own.result.2.Covered (earlier ++ [own]) := by
  have evaluates := own.evaluates
  have table : own.result.2.compiler.table = own.compiled.2.table := evaluates.table
  have code : own.session.registry.SameCode own.compiled.2.bench.registry :=
    own.session.compiler.compile_sameCode own.unit.source own.outside.emission
  cases answer : own.compiled with
  | mk compiled done =>
    rw [answer] at table code
    cases compiled with
    | error refusal =>
      have refused := Compiler.compile_table_of_error (congrArg Prod.fst answer)
      rw [show own.session.compiler.compileWith _ _ = _ from answer] at refused
      have same := (evaluates.refused refusal (congrArg Prod.fst answer)).1
      refine ⟨⟨by simp [answer], by simp [answer], fun name id found => ?_⟩, ?_⟩
      · rw [table, refused]
        exact found
      · refine Session.Covered.append ⟨fun name listed => ?_, fun entry listed => ?_⟩ [own]
        · rw [Registry.artifactNames, show own.result.2.registry.artifacts = _ from same.artifacts] at listed
          exact covered.artifacts name listed
        · rw [table, refused] at listed
          exact covered.containers entry listed
    | ok output =>
      obtain ⟨program, checked, compiled⟩ := Evaluation.compiled_ok proper legible answer
      have output_eq {other : CompiledUnit} (same : (Except.ok output : Except Refusal _) = .ok other) :
          output = other := Except.ok.inj same
      have fresh : ∀ id ∈ checked.containers,
          own.session.compiler.table.find? (checked.symbols.get id).name = none := fun id among =>
        (covered.absent apart (compiled.symbols ▸ List.mem_map_of_mem among)).2
      refine ⟨⟨fun other same => ?_, fun other same => ?_, fun name id found => ?_⟩,
        ⟨fun name listed => ?_, fun entry listed => ?_⟩⟩
      · rw [answer] at same ⊢
        obtain rfl := output_eq same
        refine ⟨compiled.artifacts, fun front artifact back split => ?_⟩
        refine Registry.addAll_fresh _ (compiled.artifacts ▸ compiled.distinct) (fun artifact among => ?_) split
        rw [Registry.artifactNames, code.artifacts]
        exact (covered.absent apart (compiled.artifacts ▸ List.mem_map_of_mem among)).1
      · rw [answer]
        exact ⟨_, _, compiled.symbols, compiled.table, fun front id back split =>
          SymbolTable.commit_fresh (compiled.symbols ▸ compiled.distinct) fresh split⟩
      · rw [table, compiled.table, SymbolTable.find?_commit, found]
        rintro other among rfl
        rw [fresh other among] at found
        cases found
      · rcases evaluates.loaded output (congrArg Prod.fst answer) name listed with new | old
        · exact ⟨own, by simp, compiled.artifacts ▸ new⟩
        · exact (covered.append [own]).artifacts name old
      · rw [table, compiled.table] at listed
        rcases SymbolTable.mem_commit listed with old | ⟨among, named⟩
        · exact (covered.append [own]).containers entry old
        · exact ⟨own, by simp, named ▸ compiled.symbols ▸ List.mem_map_of_mem among⟩

namespace Session

variable {before after session : Session} {log earlier : List Evaluation} {started : Bool}

/-- One evaluation after the other brings what is new, if no two of them have a name in common. -/
theorem Passes.fresh (passes : Passes before log after) (proper : ∀ own ∈ log, own.Proper)
    (legible : before.Legible) (covered : before.Covered earlier)
    (apart : (earlier ++ log).Pairwise fun old own => old.unit.names.Disjoint own.unit.names) :
    (∀ own ∈ log, own.Fresh) ∧ after.Covered (earlier ++ log) := by
  induction passes generalizing earlier with
  | kept kept => exact ⟨by simp, (covered.of_kept kept).append []⟩
  | @evaluate before after own log kept rest ih =>
    rw [List.forall_mem_cons] at proper ⊢
    have alone : ∀ old ∈ earlier, old.unit.names.Disjoint own.unit.names := fun old among =>
      (List.pairwise_append.mp apart).2.2 old among own List.mem_cons_self
    obtain ⟨fresh, brought⟩ :=
      Evaluation.fresh proper.1 (legible.of_kept kept) (covered.of_kept kept) alone
    rw [List.append_cons] at apart ⊢
    obtain ⟨others, ends⟩ :=
      ih proper.2 (Evaluation.legible proper.1 (legible.of_kept kept)) brought apart
    exact ⟨⟨fresh, others⟩, ends⟩

/-- The sessions that come about, each with its evaluations since it was new or last started anew.
A session is started once; a switch of the mode that replaces a loader in use starts it anew. -/
inductive Runs : Session → Bool → List Evaluation → Prop
  | new (config : SessionConfig) (files : Files) : Runs (new config files) false []
  | start {session : Session} {log : List Evaluation} (outside : String → Outside)
      (runs : Runs session false log) :
      Runs (session.start outside).2 true (log ++ session.evaluationsOfStart outside)
  | process {session : Session} {started : Bool} {log : List Evaluation} (text : String) (outside : Outside)
      (runs : Runs session started log) :
      Runs (session.process text outside).2 started (log ++ session.evaluationsOf text outside)
  | perform {session : Session} {started : Bool} {log : List Evaluation} {request : Request}
      (other : ∀ enabled outside, request ≠ .setShared enabled outside) (runs : Runs session started log) :
      Runs (session.perform request) started log
  | stay {session : Session} {started : Bool} {log : List Evaluation} {enabled : Bool}
      (outside : String → Outside) (same : (session.registry.setShared enabled).1 = false)
      (runs : Runs session started log) : Runs (session.perform (.setShared enabled outside)) started log
  | swap {session : Session} {started : Bool} {log : List Evaluation} {enabled : Bool}
      {registry : Registry} (outside : String → Outside)
      (switched : session.registry.setShared enabled = (true, registry)) (runs : Runs session started log) :
      Runs (session.perform (.setShared enabled outside)) true
        ((session.anew registry).evaluationsOfStart outside)

/-- The evaluations of a session so far were for different things, and all that it knows comes from
them. -/
structure Tracked (session : Session) (started : Bool) (log : List Evaluation) : Prop where
  slots : ∃ slots : List Slot, log.map (·.candidate) = slots.map Slot.candidate ∧ slots.Nodup ∧
    ∀ slot ∈ slots, slot.Past started session.line
  legible : session.Legible
  covered : session.Covered log
  fresh : ∀ own ∈ log, own.Fresh

/-- Evaluations for different things have no name in common. -/
theorem pairwise_names {slots : List Slot} (named : log.map (·.candidate) = slots.map Slot.candidate)
    (distinct : slots.Nodup) : log.Pairwise fun own other => own.unit.names.Disjoint other.unit.names := by
  induction slots generalizing log with
  | nil =>
    obtain rfl : log = [] := List.map_eq_nil_iff.mp named
    exact .nil
  | cons slot slots ih =>
    obtain ⟨own, log, rfl, first, rest⟩ := List.map_eq_cons_iff.mp named
    rw [List.nodup_cons] at distinct
    refine List.pairwise_cons.mpr ⟨fun other among => ?_, ih rest distinct.2⟩
    have listed : other.candidate ∈ slots.map Slot.candidate := rest ▸ List.mem_map_of_mem among
    obtain ⟨another, present, second⟩ := List.mem_map.mp listed
    refine Evaluation.names_disjoint first second.symm ?_
    rintro rfl
    exact distinct.1 present

/-- Evaluations for further things keep a session tracked. -/
theorem Tracked.append {more : List Evaluation} {slots : List Slot} {now : Bool}
    (tracked : before.Tracked started log) (passes : Passes before more after)
    (proper : ∀ own ∈ more, own.Proper) (named : more.map (·.candidate) = slots.map Slot.candidate)
    (distinct : slots.Nodup) (new : ∀ slot ∈ slots, ¬ slot.Past started before.line)
    (past : ∀ slot ∈ slots, slot.Past now after.line)
    (still : ∀ slot : Slot, slot.Past started before.line → slot.Past now after.line) :
    after.Tracked now (log ++ more) := by
  obtain ⟨old, called, different, gone⟩ := tracked.slots
  have whole : (log ++ more).map (·.candidate) = (old ++ slots).map Slot.candidate := by
    rw [List.map_append, called, named, List.map_append]
  have apart : (old ++ slots).Nodup :=
    List.nodup_append'.mpr ⟨different, distinct, fun slot among listed => new slot listed (gone slot among)⟩
  obtain ⟨fresh, covered⟩ :=
    passes.fresh proper tracked.legible tracked.covered (pairwise_names whole apart)
  refine ⟨⟨old ++ slots, whole, apart, ?_⟩, passes.legible proper tracked.legible, covered, ?_⟩
  · rw [List.forall_mem_append]
    exact ⟨fun slot among => still slot (gone slot among), past⟩
  · rw [List.forall_mem_append]
    exact ⟨tracked.fresh, fresh⟩

theorem Tracked.of_kept (tracked : before.Tracked started log) (kept : before.Kept after)
    (line : after.line = before.line) : after.Tracked started log :=
  ⟨line ▸ tracked.slots, tracked.legible.of_kept kept, tracked.covered.of_kept kept, tracked.fresh⟩

theorem candidates_run (code wrapper : String) (outside : Outside) :
    ((session.evaluationsOfRun code wrapper outside).map (·.candidate)).Sublist [wrapper] := by
  unfold evaluationsOfRun
  split
  · exact .refl _
  · exact List.nil_sublist _

/-- A start evaluates the code that comes first and the predefined code, each at most once. -/
theorem slots_start (session : Session) (outside : String → Outside) : ∃ slots : List Slot,
    (session.evaluationsOfStart outside).map (·.candidate) = slots.map Slot.candidate ∧
      slots.Sublist [.bootstrap, .predef] := by
  have few : ((session.evaluationsOfStart outside).map (·.candidate)).Sublist
      ([Slot.bootstrap, .predef].map Slot.candidate) := by
    unfold evaluationsOfStart
    rw [List.map_append]
    refine (candidates_run _ _ _).append ?_
    split
    · split
      · exact List.nil_sublist _
      · exact candidates_run _ _ _
    · exact List.nil_sublist _
  obtain ⟨slots, sublist, named⟩ := List.sublist_map_iff.mp few
  exact ⟨slots, named, sublist⟩

theorem Tracked.start (tracked : session.Tracked false log) (outside : String → Outside) :
    (session.start outside).2.Tracked true (log ++ session.evaluationsOfStart outside) := by
  obtain ⟨passes, line⟩ := start_passes session outside
  obtain ⟨slots, named, sublist⟩ := slots_start session outside
  have among : ∀ slot ∈ slots, slot = .bootstrap ∨ slot = .predef := fun slot listed => by
    simpa using sublist.subset listed
  refine tracked.append passes proper_start named (sublist.nodup (by decide)) (fun slot listed => ?_)
    (fun slot listed => ?_) (fun slot past => ?_)
  · rcases among slot listed with rfl | rfl <;> simp [Slot.Past]
  · rcases among slot listed with rfl | rfl <;> rfl
  · rw [line]
    cases slot with
    | bootstrap | predef => rfl
    | fragment number => exact past

theorem Tracked.process (tracked : session.Tracked started log) (text : String) (outside : Outside) :
    (session.process text outside).2.Tracked started (log ++ session.evaluationsOf text outside) := by
  obtain ⟨passes, line⟩ := process_passes session text outside
  have proper : ∀ own ∈ session.evaluationsOf text outside, own.Proper := proper_process
  have later (slot : Slot) (past : slot.Past started session.line) :
      slot.Past started (session.process text outside).2.line := by
    cases slot with
    | bootstrap | predef => exact past
    | fragment number =>
      have small : number < session.line := past
      show number < (session.process text outside).2.line
      omega
  unfold evaluationsOf at passes line proper ⊢
  cases read : session.reading text with
  | declarations decls =>
    simp only [read] at passes line proper ⊢
    refine tracked.append passes proper (show _ = [Slot.fragment session.line].map Slot.candidate from rfl)
      (List.nodup_singleton _) ?_ ?_ later
    · simp [Slot.Past]
    · simp [Slot.Past, line]
  | incomplete _ | blank | malformed _ =>
    simp only [read] at passes proper ⊢
    exact tracked.append passes proper (show _ = ([] : List Slot).map Slot.candidate from rfl) .nil
      (by simp) (by simp) later

/-- A session knows nothing before its first evaluation. -/
theorem tracked_new (config : SessionConfig) (files : Files) : (new config files).Tracked false [] where
  slots := ⟨[], rfl, .nil, by simp⟩
  legible := legible_new config files
  covered := by
    refine ⟨fun name listed => ?_, fun entry listed => by cases listed⟩
    have empty : (new config files).registry.artifacts = [] := by
      show ((({ toolchain := config.toolchain } : Registry).setShared config.shared).2.setPlugins
        config.plugins).artifacts = []
      cases config.shared <;> cases config.plugins <;> rfl
    rw [Registry.artifactNames, empty] at listed
    cases listed
  fresh := by simp

theorem tracked_anew (session : Session) {registry : Registry} (empty : registry.artifacts = []) :
    (session.anew registry).Tracked false [] where
  slots := ⟨[], rfl, .nil, by simp⟩
  legible := legible_anew session registry
  covered := by
    refine ⟨fun name listed => ?_, fun entry listed => by cases listed⟩
    rw [Registry.artifactNames, show (session.anew registry).registry = registry from rfl, empty] at listed
    cases listed
  fresh := by simp

theorem Runs.tracked (runs : Runs session started log) : session.Tracked started log := by
  induction runs with
  | new config files => exact tracked_new config files
  | start outside runs ih => exact ih.start outside
  | process text outside runs ih => exact ih.process text outside
  | perform other runs ih =>
    obtain ⟨kept, line⟩ := perform_kept _ other
    exact ih.of_kept kept line
  | @stay session started log enabled outside same runs ih =>
    rcases perform_setShared session enabled outside with ⟨-, kept, line⟩ | ⟨registry, switched, -⟩
    · exact ih.of_kept kept line
    · rw [switched] at same
      cases same
  | @swap session started log enabled registry outside switched runs ih =>
    rcases perform_setShared session enabled outside with ⟨same, -⟩ | ⟨other, switched', empty, ends⟩
    · rw [switched] at same
      cases same
    · obtain rfl : registry = other := by
        rw [switched] at switched'
        exact congrArg Prod.snd switched'
      rw [ends]
      exact (tracked_anew session empty).start outside

end Session

/-- The names of wrappers never collide: no two evaluations since a session was new or last started
anew have units with a common name, each artifact that was loaded was the only one of its name, and
each container was taken over under a name that was free. -/
theorem Session.Runs.names_never_collide {session : Session} {started : Bool} {log : List Evaluation}
    (runs : Session.Runs session started log) :
    log.Pairwise (fun own other => own.unit.names.Disjoint other.unit.names) ∧
      ∀ own ∈ log, own.Fresh := by
  have tracked := runs.tracked
  obtain ⟨slots, named, distinct, -⟩ := tracked.slots
  exact ⟨Session.pairwise_names named distinct, tracked.fresh⟩

/-- A session that wraps into instances, the code it starts with, and a fragment that asks for a
module. -/
theorem Session.Runs.names_never_collide_of_escape : ∃ (session : Session) (log : List Evaluation),
    Session.Runs session true log ∧
    log.map (·.unit.names) = [["cmd_1$Main", "cmd_1", "cmd_1$User"],
      ["specialObjCmd0$Main", "specialObjCmd0"]] ∧
    log.Pairwise (fun own other => own.unit.names.Disjoint other.unit.names) ∧
    ∀ own ∈ log, own.Fresh := by
  have begun : Session.Runs _ true _ :=
    .start (fun _ => {}) (.new { wrap := .boxed, bootstrap := "val a = 1" } {})
  have escaped := begun.process "import special.wrap.obj\n2" {}
  refine ⟨_, _, escaped, ?_, ?_⟩
  · decide +kernel
  · exact escaped.names_never_collide

end ScriptShell
