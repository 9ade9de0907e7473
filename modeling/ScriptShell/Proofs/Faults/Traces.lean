import Mathlib.Data.List.Forall2
import Mathlib.Data.List.TakeWhile
import ScriptShell.Fault

/-!
Traces of faults. A trace has a part for each level. A part lists the frames in front of the marker, so many
at most, and says how many of them it leaves out. Frames from the marker on play no part in it.
-/
namespace ScriptShell

/-- The frame ends in this method: the method has no dot in it, and is the whole frame or stands behind a
dot. -/
def EndsInMethod (method frame : String) : Prop :=
  '.' ∉ method.toList ∧ (frame = method ∨ ∃ owner, frame = owner ++ "." ++ method)

theorem endsInMethod_frameMethod (frame : String) : EndsInMethod (frameMethod frame) frame := by
  have parted := List.takeWhile_append_dropWhile (p := (· ≠ '.')) (l := frame.toList.reverse)
  constructor
  · intro dotted
    simp only [frameMethod, String.toList_ofList, List.mem_reverse] at dotted
    simpa using List.mem_takeWhile_imp dotted
  have stops := List.head?_dropWhile_not (p := (· ≠ '.')) frame.toList.reverse
  cases rest : frame.toList.reverse.dropWhile (· ≠ '.') with
  | nil =>
    left
    rw [rest, List.append_nil] at parted
    rw [frameMethod, parted, List.reverse_reverse, String.ofList_toList]
  | cons dot owner =>
    right
    rw [rest] at stops
    obtain rfl : dot = '.' := by simpa using stops
    refine ⟨String.ofList owner.reverse, String.toList_inj.mp ?_⟩
    rw [rest] at parted
    simpa [frameMethod] using (congrArg List.reverse parted).symm

/-- A frame ends in one method only. -/
theorem frameMethod_eq_iff {frame method : String} : frameMethod frame = method ↔ EndsInMethod method frame := by
  refine ⟨fun same => same ▸ endsInMethod_frameMethod frame, fun ends => ?_⟩
  obtain ⟨plain, whole⟩ := ends
  have passes : ∀ c ∈ method.toList.reverse, decide (c ≠ '.') = true := fun c among =>
    decide_eq_true fun dot => plain (dot ▸ List.mem_reverse.mp among)
  have taken : frame.toList.reverse.takeWhile (· ≠ '.') = method.toList.reverse := by
    obtain rfl | ⟨owner, rfl⟩ := whole
    · exact List.takeWhile_eq_self_iff.mpr passes
    · have reversed : (owner ++ "." ++ method).toList.reverse =
          method.toList.reverse ++ '.' :: owner.toList.reverse := by
        simp
      rw [reversed, List.takeWhile_append_of_pos passes]
      simp
  rw [frameMethod, taken, List.reverse_reverse, String.ofList_toList]

namespace FaultLevel

/-- The lines for listed frames. -/
def frameLines (frames : List String) : String := String.join (frames.map ("\n  at " ++ ·))

/-- The line for frames that are left out, if there are any. -/
def hiddenLine (hidden : Nat) : String :=
  if hidden = 0 then "" else "\n  ... " ++ toString hidden ++ " more"

variable {marker text : String}

/-- What the loop over the frames adds to a text, at any count of listed frames. -/
theorem listFrames_eq {shown : Nat} (bound : shown ≤ maxFrames) (hidden : Nat) (frames : List String) :
    listFrames marker text shown hidden frames =
      (text ++ frameLines ((frames.takeWhile (frameMethod · ≠ marker)).take (maxFrames - shown)),
        hidden + ((frames.takeWhile (frameMethod · ≠ marker)).length - (maxFrames - shown))) := by
  induction frames generalizing text shown hidden with
  | nil => simp [listFrames, frameLines]
  | cons frame rest ih =>
    unfold listFrames
    split
    next stop => simp [stop, frameLines]
    next other =>
      have user : (frame :: rest).takeWhile (frameMethod · ≠ marker) =
          frame :: rest.takeWhile (frameMethod · ≠ marker) := List.takeWhile_cons_of_pos (by simp [other])
      rw [user]
      split
      next full =>
        subst full
        simp only [ih bound, Nat.sub_self, List.take_zero, List.length_cons, Nat.sub_zero]
        rw [Nat.add_right_comm, Nat.add_assoc]
      next room =>
        have more : maxFrames - shown = (maxFrames - (shown + 1)) + 1 := by omega
        rw [ih (by omega), more, List.take_succ_cons, List.length_cons, Nat.add_sub_add_right]
        simp [frameLines, String.append_assoc]

/-- The part of a level in a trace: its headline, the first frames in front of the marker, and the number of
the others. -/
theorem render_eq (level : FaultLevel) (marker : String) : level.render marker =
    level.headline ++ frameLines ((level.userFrames marker).take maxFrames) ++
      hiddenLine ((level.userFrames marker).length - maxFrames) := by
  unfold render
  rw [listFrames_eq (Nat.zero_le _), Nat.sub_zero, Nat.zero_add]
  dsimp only [userFrames, hiddenLine]
  split
  · rw [String.append_empty]
  · rfl

/-- A part of a trace accounts for a level. Its frames are parted in front of the first one that ends in the
marker: the part names the level, lists the first 1024 of those in front, and says how many of them it leaves
out, if it leaves out any. -/
inductive Accounted (marker : String) (level : FaultLevel) : String → Prop
  | parted (user rest : List String) (frames : level.frames = user ++ rest)
      (own : ∀ frame ∈ user, ¬EndsInMethod marker frame)
      (stops : ∀ frame ∈ rest.head?, EndsInMethod marker frame) :
      Accounted marker level
        ((if level.message = "" then level.kind.name else level.kind.name ++ ": " ++ level.message) ++
          String.join ((user.take 1024).map ("\n  at " ++ ·)) ++
          if 1024 < user.length then "\n  ... " ++ toString (user.length - 1024) ++ " more" else "")

theorem accounted_render (level : FaultLevel) (marker : String) :
    level.Accounted marker (level.render marker) := by
  have own : ∀ frame ∈ level.userFrames marker, ¬EndsInMethod marker frame := fun frame among ends => by
    simpa [frameMethod_eq_iff.mpr ends] using List.mem_takeWhile_imp among
  have stops : ∀ frame ∈ (level.frames.dropWhile (frameMethod · ≠ marker)).head?,
      EndsInMethod marker frame := by
    intro frame first
    have fails := List.head?_dropWhile_not (p := (frameMethod · ≠ marker)) level.frames
    rw [first] at fails
    exact frameMethod_eq_iff.mp (by simpa using fails)
  have hidden : hiddenLine ((level.userFrames marker).length - maxFrames) =
      if 1024 < (level.userFrames marker).length then
        "\n  ... " ++ toString ((level.userFrames marker).length - 1024) ++ " more" else "" := by
    unfold hiddenLine maxFrames
    split <;> split <;> first | rfl | omega
  have headline : level.headline =
      if level.message = "" then level.kind.name else level.kind.name ++ ": " ++ level.message := by
    simp [FaultLevel.headline]
  rw [render_eq, hidden, headline]
  exact .parted _ _ List.takeWhile_append_dropWhile.symm own stops

/-- A level without the frames from the marker on. -/
def cut (level : FaultLevel) (marker : String) : FaultLevel := { level with frames := level.userFrames marker }

theorem render_cut (level : FaultLevel) (marker : String) :
    (level.cut marker).render marker = level.render marker := by
  have twice : (level.cut marker).userFrames marker = level.userFrames marker :=
    List.takeWhile_eq_self_iff.mpr fun _ => List.mem_takeWhile_imp
  rw [render_eq, render_eq, twice]
  rfl

end FaultLevel

namespace Fault

/-- A fault without the frames from the marker on, on every level. -/
def cut (fault : Fault) (marker : String) : Fault := ⟨fault.top.cut marker, fault.causes.map (·.cut marker)⟩

theorem joinWith_append_cons (separator front text : String) (rest : List String) :
    joinWith separator ((front ++ text) :: rest) = front ++ joinWith separator (text :: rest) := by
  cases rest with
  | nil => rfl
  | cons second rest => simp only [joinWith, String.append_assoc]

theorem traceCauses_eq (marker text : String) (causes : List FaultLevel) :
    traceCauses marker text causes = joinWith "\nCaused by: " (text :: causes.map (·.render marker)) := by
  induction causes generalizing text with
  | nil => rfl
  | cons cause causes ih =>
    rw [traceCauses, ih, ← String.append_assoc, joinWith_append_cons]
    rfl

/-- The parts of a trace are those of the levels, the outermost first. -/
theorem trace_eq (fault : Fault) (marker : String) :
    fault.trace marker = ⟨joinWith "\nCaused by: " (fault.levels.map (·.render marker)), some marker⟩ := by
  rw [trace, traceCauses_eq]
  rfl

/-- The trace of a fault has a part for each level, which accounts for the frames of that level in front of
the marker. What stands from the marker on, on any level, makes no difference to it. -/
theorem trace_accounts_for_frames (fault : Fault) (marker : String) :
    (∃ parts, List.Forall₂ (FaultLevel.Accounted marker) fault.levels parts ∧
      fault.trace marker = ⟨joinWith "\nCaused by: " parts, some marker⟩) ∧
    (fault.cut marker).trace marker = fault.trace marker := by
  constructor
  · refine ⟨fault.levels.map (·.render marker), ?_, trace_eq fault marker⟩
    rw [List.forall₂_map_right_iff, List.forall₂_same]
    exact fun level _ => level.accounted_render marker
  · rw [trace_eq, trace_eq]
    simp [cut, levels, FaultLevel.render_cut, Function.comp_def]

example : (Fault.mk ⟨.runtimeError, "no", ["a.f", "kiln.g", "b.h"]⟩ [⟨.exit, "", ["c", "g"]⟩]).trace "g" =
    ⟨"kiln.RuntimeError: no\n  at a.f\nCaused by: kiln.Exit\n  at c", some "g"⟩ := by decide +kernel

end Fault

end ScriptShell
