import ScriptShell.Proofs.Text.Sorted
import ScriptShell.Repl

/-!
Input in pieces. A session keeps a text that is incomplete and reads it again together with what follows, so
a fragment may be cut anywhere, as long as no piece of it ends where a fragment could end. Neither the line
number nor anything else moves in between: the results and the session are those of the whole text. The loop
cuts its input into lines and shows a blank prompt for each piece but the first. Only a first line that starts
with a colon is kept from the session, since the loop takes it for a command.
-/
namespace ScriptShell

namespace Fragment

/-- The text asks for more. -/
def Unfinished (source : String) : Prop := ∃ line text, parse source line = .incomplete text

/-- A text asks for more on every line, and for all of itself back. -/
theorem Unfinished.parse {source : String} (h : Unfinished source) (line : String) :
    parse source line = .incomplete source := by
  obtain ⟨own, text, incomplete⟩ := h
  unfold Fragment.parse at incomplete ⊢
  split at incomplete
  · cases incomplete
  · unfold ofTokens at incomplete ⊢
    split at incomplete
    · cases incomplete
    · next some =>
      rw [if_neg some]
      split at incomplete
      · cases incomplete
      · split at incomplete
        · next more => rw [if_pos more]
        · cases incomplete

/-- Behind a text, pieces ask for more up to the last one. -/
def StaysUnfinished (front : String) (texts : List String) : Prop :=
  ∀ k, 0 < k → k < texts.length → Unfinished (front ++ String.join (texts.take k))

variable {front first second : String} {rest : List String}

theorem StaysUnfinished.head (h : StaysUnfinished front (first :: second :: rest)) :
    Unfinished (front ++ first) := by
  have own := h 1 (by simp) (by simp)
  simpa [String.join_cons] using own

theorem StaysUnfinished.tail (h : StaysUnfinished front (first :: rest)) :
    StaysUnfinished (front ++ first) rest := by
  intro k some inside
  have own := h (k + 1) (by simp) (by simpa using inside)
  rwa [List.take_succ_cons, String.join_cons, ← String.append_assoc] at own

end Fragment

open Fragment

namespace Session

variable {session : Session} {buffer : String} {texts : List String}

/-- The session with other pending input. -/
def await (session : Session) (pending : Option String) : Session := { session with pending }

theorem await_self {pending : Option String} (h : session.pending = pending) :
    session.await pending = session := by
  subst h
  rfl

/-- What is pending is read in front of a text. -/
theorem process_await (session : Session) (buffer text : String) (outside : Outside) :
    (session.await (some buffer)).process text outside =
      (session.await none).process (buffer ++ text) outside := by
  simp [process, await]

/-- A text that asks for more is kept, and nothing else changes. -/
theorem process_unfinished {source : String} (h : Unfinished source) (outside : Outside) :
    (session.await none).process source outside = (.buffer source, session.await (some source)) := by
  simp [process, await, h.parse]

/-- Takes in texts one after the other. -/
def processAll (session : Session) (texts : List String) (outside : Outside := {}) :
    List (Outcome String) × Session :=
  match texts with
  | [] => ([], session)
  | text :: rest =>
    let (outcome, session) := session.process text outside
    let (others, session) := processAll session rest outside
    (outcome :: others, session)

/-- The answers to all pieces of a text but the last one. -/
def buffers (front : String) (texts : List String) : List (Outcome String) :=
  (List.range (texts.length - 1)).map fun k => .buffer (front ++ String.join (texts.take (k + 1)))

theorem buffers_cons (front first second : String) (rest : List String) :
    buffers front (first :: second :: rest) =
      .buffer (front ++ first) :: buffers (front ++ first) (second :: rest) := by
  simp only [buffers, List.length_cons, Nat.add_sub_cancel, List.range_succ_eq_map, List.map_cons,
    List.map_map, Function.comp_def, List.take_succ_cons, List.take_zero, String.join_cons,
    String.join_nil, String.append_empty, Nat.succ_eq_add_one, String.append_assoc]

/-- Pieces behind pending input come to the whole text. -/
theorem processAll_await (some : texts ≠ []) (stays : StaysUnfinished buffer texts) (outside : Outside) :
    (session.await (.some buffer)).processAll texts outside =
      (buffers buffer texts ++ [((session.await none).process (buffer ++ String.join texts) outside).1],
        ((session.await none).process (buffer ++ String.join texts) outside).2) := by
  induction texts generalizing buffer with
  | nil => exact absurd rfl some
  | cons first rest ih =>
    rw [processAll, process_await]
    cases rest with
    | nil => simp [processAll, buffers, String.join_cons]
    | cons second rest =>
      have whole := ih (by simp) stays.tail
      rw [process_unfinished stays.head]
      simp only [whole, buffers_cons, String.join_cons, String.append_assoc, List.cons_append]

end Session

namespace Repl

variable {repl : Repl} {prompt buffer : String} {given : List String}

/-- The loop whose session has other pending input. -/
def await (repl : Repl) (pending : Option String) : Repl :=
  { repl with session := repl.session.await pending }

/-- The blank prompt. -/
def blank (prompt : String) : String := String.ofList (List.replicate prompt.length ' ')

/-- The prompts for a text of so many lines. -/
def prompts (prompt : String) (lines : Nat) : String :=
  prompt ++ String.join (List.replicate (lines - 1) (blank prompt))

/-- Hands a text to the session and prints what became of it. -/
def enter (repl : Repl) (text : String) : Bool × Repl :=
  let (outcome, session) := repl.session.process text
  { repl with session }.report outcome

/-- Reads on, if the session goes on. -/
def proceed (prompt : String) (lines : List (List Char)) : Bool × Repl → Repl
  | (true, repl) => loop prompt repl lines
  | (false, repl) => repl

/-- The texts that the loop hands to the session for lines. -/
def pieces : List String → List String
  | [] => []
  | first :: others => first :: others.map ("\n" ++ ·)

/-- Nothing is printed between two writes. -/
theorem write_write (repl : Repl) (first second : String) :
    (repl.write first).write second = repl.write (first ++ second) := by
  simp [write, Session.takeOutput, Machine.takeOutput, Session.modifyMachine, Session.modifyBench,
    String.append_assoc]

theorem write_await (repl : Repl) (pending : Option String) (text : String) :
    (repl.await pending).write text = (repl.write text).await pending := rfl

theorem enter_await (repl : Repl) (buffer text : String) :
    (repl.await (some buffer)).enter text = (repl.await none).enter (buffer ++ text) := by
  simp [enter, await, Session.process_await]

/-- Nothing is printed for a text that asks for more. -/
theorem enter_unfinished {source : String} (h : Unfinished source) :
    (repl.await none).enter source = (true, (repl.write "").await (some source)) := by
  simp only [enter, await, Session.process_unfinished h]
  rfl

/-- While input is pending, a line is a piece of it. -/
theorem takeLine_await (repl : Repl) (buffer line : String) :
    (repl.await (some buffer)).takeLine line.toList =
      (repl.await none).enter (buffer ++ ("\n" ++ line)) := by
  have own : (repl.await (some buffer)).takeLine line.toList =
      (repl.await (some buffer)).enter ("\n" ++ String.ofList line.toList) := rfl
  rw [own, String.ofList_toList, enter_await]

theorem takeLine_first {line : String} (h : repl.session.pending = none)
    (plain : line.toList.head? ≠ some ':') : repl.takeLine line.toList = repl.enter line := by
  unfold takeLine enter
  rw [h]
  split
  · next shown => simp [shown] at plain
  · simp
  · next shown => cases shown

/-- Pending input is read on with the lines that follow. -/
theorem loop_await (some : given ≠ []) (shown : String) (more : List (List Char))
    (stays : StaysUnfinished buffer (given.map ("\n" ++ ·))) :
    loop prompt ((repl.write shown).await (.some buffer)) (given.map String.toList ++ more) =
      proceed prompt more (((repl.write (shown ++
        String.join (List.replicate given.length (blank prompt)))).await none).enter
          (buffer ++ String.join (given.map ("\n" ++ ·)))) := by
  -- what was shown so far takes in the next blank prompt, and the buffer the next line
  induction given generalizing shown buffer with
  | nil => exact absurd rfl some
  | cons line rest ih =>
    rw [List.map_cons, List.cons_append, loop]
    have asked : promptText ((repl.write shown).await (.some buffer)) prompt = blank prompt := rfl
    rw [asked, write_await, write_write, takeLine_await]
    cases rest with
    | nil =>
      simp only [List.map_cons, List.map_nil, List.nil_append, List.length_singleton, List.replicate_one,
        String.join_cons, String.join_nil, String.append_empty]
      rfl
    | cons second rest =>
      rw [enter_unfinished stays.head, write_write, String.append_empty]
      refine (ih (by simp) (shown ++ blank prompt) stays.tail).trans ?_
      simp only [List.map_cons, List.length_cons, List.replicate_succ, String.join_cons,
        String.append_assoc]

/-- Lines are read as one text, if the first of them is no command. -/
theorem loop_pieces (some : given ≠ []) (free : repl.session.pending = none)
    (plain : ∀ line ∈ given.head?, line.toList.head? ≠ .some ':') (stays : StaysUnfinished "" (pieces given))
    (more : List (List Char)) : loop prompt repl (given.map String.toList ++ more) =
      proceed prompt more ((repl.write (prompts prompt given.length)).enter
        (String.join (pieces given))) := by
  cases given with
  | nil => exact absurd rfl some
  | cons first others =>
    have asked : promptText repl prompt = prompt := by simp [promptText, free]
    have quiet (text : String) : (repl.write text).await none = repl.write text :=
      congrArg (Repl.mk · _) (Session.await_self free)
    have entered : (repl.write prompt).takeLine first.toList = (repl.write prompt).enter first :=
      takeLine_first free (plain first rfl)
    rw [List.map_cons, List.cons_append, loop, asked, entered]
    cases others with
    | nil =>
      have text : String.join (pieces [first]) = first := by simp [pieces, String.join_cons]
      have shown : prompts prompt [first].length = prompt := by simp [prompts]
      rw [text, shown]
      rfl
    | cons second rest =>
      have start : Unfinished first := by simpa [pieces] using stays.head
      rw [← quiet, enter_unfinished start, write_write, String.append_empty]
      have later : StaysUnfinished first ((second :: rest).map ("\n" ++ ·)) := by
        simpa [pieces] using stays.tail
      refine (loop_await (by simp) prompt more later).trans ?_
      rw [quiet]
      simp only [pieces, prompts, List.length_cons, Nat.add_sub_cancel, String.join_cons]

/-- Lines are the pieces of a text. -/
theorem join_pieces (given : List String) : String.join (pieces given) = joinWith "\n" given := by
  cases given with
  | nil => rfl
  | cons first others =>
    rw [pieces, String.join_cons]
    induction others generalizing first with
    | nil => simp [joinWith]
    | cons second rest ih =>
      rw [joinWith, ← ih second, List.map_cons, String.join_cons]
      · simp only [String.append_assoc]
      · simp

theorem length_pieces (given : List String) : (pieces given).length = given.length := by
  cases given <;> simp [pieces]

theorem take_pieces (given : List String) (k : Nat) :
    (pieces given).take k = pieces (given.take k) := by
  cases given with
  | nil => simp [pieces]
  | cons first others =>
    cases k with
    | zero => rfl
    | succ k => simp [pieces, List.map_take]

/-- A line in front of an input is its first line. -/
theorem lines_line {line : String} (own : '\n' ∉ line.toList) (more : String) :
    Repl.lines (line ++ "\n" ++ more) = line.toList :: Repl.lines more := by
  have cut : Files.splitAt '\n' (line ++ "\n" ++ more).toList =
      line.toList :: Files.splitAt '\n' more.toList := by
    rw [← Files.splitAt_piece own]
    simp
  have some := Files.splitAt_ne_nil '\n' more.toList
  simp only [Repl.lines, cut, List.getLast?_cons_of_ne_nil some, List.dropLast_cons_of_ne_nil some]
  split <;> rfl

/-- Lines that are one text for the session: with those in front of it none is a whole fragment, except perhaps
the last one, and the first is no command. -/
structure Continued (given : List String) : Prop where
  some : given ≠ []
  lines : ∀ line ∈ given, '\n' ∉ line.toList
  plain : (joinWith "\n" given).toList.head? ≠ .some ':'
  unfinished : ∀ k, 0 < k → k < given.length → Unfinished (joinWith "\n" (given.take k))

theorem lines_joined (some : given ≠ []) (own : ∀ line ∈ given, '\n' ∉ line.toList) (more : String) :
    Repl.lines (joinWith "\n" given ++ "\n" ++ more) = given.map String.toList ++ Repl.lines more := by
  induction given with
  | nil => exact absurd rfl some
  | cons first others ih =>
    cases others with
    | nil => exact lines_line (own first List.mem_cons_self) more
    | cons second rest =>
      have later := ih (by simp) fun line mem => own line (List.mem_cons_of_mem _ mem)
      have text : joinWith "\n" (first :: second :: rest) ++ "\n" ++ more =
          first ++ "\n" ++ (joinWith "\n" (second :: rest) ++ "\n" ++ more) := by
        simp only [joinWith, String.append_assoc]
      rw [text, lines_line (own first List.mem_cons_self), later]
      rfl

/-- The loop reads continued lines as one text. -/
theorem loop_continued (h : Continued given) (free : repl.session.pending = none) (more : String) :
    loop prompt repl (Repl.lines (joinWith "\n" given ++ "\n" ++ more)) =
      proceed prompt (Repl.lines more)
        ((repl.write (prompts prompt given.length)).enter (joinWith "\n" given)) := by
  have plain : ∀ line ∈ given.head?, line.toList.head? ≠ some ':' := by
    rintro first head colon
    obtain ⟨others, rfl⟩ := List.head?_eq_some_iff.mp head
    apply h.plain
    rw [← join_pieces, pieces, String.join_cons, String.toList_append, List.head?_append, colon]
    rfl
  have stays : StaysUnfinished "" (pieces given) := by
    intro k some inside
    rw [String.empty_append, take_pieces, join_pieces]
    exact h.unfinished k some (by rwa [length_pieces] at inside)
  rw [lines_joined h.some h.lines, loop_pieces h.some free plain stays, join_pieces]

open Session

/-- A text that is cut where it asks for more is read as a whole: every piece but the last is buffered, and the
last answer and the session are those of the whole text. So is an input whose lines ask for more, if its first
line is no command. -/
theorem pieces_whole :
    (∀ (session : Session) (texts : List String) (outside : Outside), session.pending = none → texts ≠ [] →
      (∀ k, 0 < k → k < texts.length → Unfinished (String.join (texts.take k))) →
      session.processAll texts outside =
        ((List.range (texts.length - 1)).map (fun k => .buffer (String.join (texts.take (k + 1)))) ++
          [(session.process (String.join texts) outside).1], (session.process (String.join texts) outside).2)) ∧
    (∀ (repl : Repl) (prompt : String) (given : List String) (more : String),
      repl.session.pending = none → Continued given →
      loop prompt repl (Repl.lines (joinWith "\n" given ++ "\n" ++ more)) =
        proceed prompt (Repl.lines more)
          ((repl.write (prompts prompt given.length)).enter (joinWith "\n" given))) ∧
    (∀ (config : ReplConfig) (session : Session) (repl : Repl) (given : List String) (more : String),
      setup config ⟨session, ""⟩ = (true, repl) → repl.session.pending = none → Continued given →
      Repl.run config session (joinWith "\n" given ++ "\n" ++ more) =
        (proceed config.prompt (Repl.lines more)
          ((repl.write (prompts config.prompt given.length)).enter (joinWith "\n" given))).finish 0) := by
  constructor
  · intro session texts outside free some unfinished
    have stays : StaysUnfinished "" texts := by
      intro k own inside
      rw [String.empty_append]
      exact unfinished k own inside
    have pending : session.processAll texts outside = (session.await (.some "")).processAll texts outside := by
      cases texts with
      | nil => exact absurd rfl some
      | cons first rest =>
        rw [processAll, processAll, process_await, String.empty_append, await_self free]
    rw [pending, processAll_await some stays outside, String.empty_append, await_self free]
    simp only [buffers, String.empty_append]
  constructor
  · intro repl prompt given more free continued
    exact loop_continued continued free more
  · intro config session repl given more started free continued
    simp only [Repl.run, started, loop_continued continued free]

/-- A call over three texts, and an expression over two lines of an input. -/
theorem pieces_whole_of_call :
    (Session.new {} {}).processAll ["f(", "1,", "\n2)"] =
        ([.buffer "f(", .buffer "f(1,", ((Session.new {} {}).process "f(1,\n2)").1],
          ((Session.new {} {}).process "f(1,\n2)").2) ∧
      loop "> " ⟨Session.new {} {}, ""⟩ (Repl.lines "(\n1)\n2") =
        proceed "> " (Repl.lines "2")
          (enter (write ⟨Session.new {} {}, ""⟩ ">   ") "(\n1)") ∧
      Repl.run {} (Session.new { bootstrap := "" } {}) "(\n1)\n" =
        (proceed "@ " [] (((setup {} ⟨Session.new { bootstrap := "" } {}, ""⟩).2.write "@   ").enter
          "(\n1)")).finish 0 := by
  obtain ⟨texts, lines, runs⟩ := pieces_whole
  have call : ∀ k, 0 < k → k < 3 → Unfinished (String.join (["f(", "1,", "\n2)"].take k)) := by
    intro k some inside
    obtain rfl | rfl : k = 1 ∨ k = 2 := by omega
    · exact ⟨"0", "f(", by decide +kernel⟩
    · exact ⟨"0", "f(1,", by decide +kernel⟩
  have group : Continued ["(", "1)"] := by
    constructor
    · simp
    · decide
    · decide
    · intro k some inside
      obtain rfl : k = 1 := by simp at inside; omega
      exact ⟨"0", "(", by decide +kernel⟩
  have ready : (setup {} ⟨Session.new { bootstrap := "" } {}, ""⟩).1 = true := by decide +kernel
  have free : (setup {} ⟨Session.new { bootstrap := "" } {}, ""⟩).2.session.pending = none := by
    decide +kernel
  refine ⟨?_, ?_, ?_⟩
  · exact texts _ ["f(", "1,", "\n2)"] {} rfl (by simp) call
  · exact lines ⟨Session.new {} {}, ""⟩ "> " ["(", "1)"] "2" rfl group
  · exact runs {} _ _ ["(", "1)"] "" (Prod.ext ready rfl) free group

/-- A line that starts with a colon asks for more, but the loop takes it for a command and reads the next line
alone. -/
theorem colon_line_apart :
    (∀ k, 0 < k → k < 2 → Unfinished (joinWith "\n" ([":", "1"].take k))) ∧
      (Repl.run {} (Session.new { bootstrap := "" } {}) (joinWith "\n" [":", "1"] ++ "\n")).session.history ≠
        ((Session.new { bootstrap := "" } {}).start.2.process (joinWith "\n" [":", "1"])).2.history := by
  constructor
  · intro k some inside
    obtain rfl : k = 1 := by omega
    exact ⟨"0", ":", by decide +kernel⟩
  · have apart : (Repl.run {} (Session.new { bootstrap := "" } {})
        (joinWith "\n" [":", "1"] ++ "\n")).session.history = ["1"] := by decide +kernel
    have whole : ((Session.new { bootstrap := "" } {}).start.2.process
        (joinWith "\n" [":", "1"])).2.history = [":\n1"] := by decide +kernel
    rw [apart, whole]
    decide

end Repl

end ScriptShell
