import Mathlib.Algebra.Order.Ring.Int
import Mathlib.Logic.Function.Iterate

/-!
# An arm that sweeps back and forth

An arm on the tracks from zero to a limit moves one track a tick and spends one tick
on turning at either end. It passes over every track again and again, and the moves
up to its next arrival at a track have a closed form. Nothing here names a program.
-/

namespace Ribabari.SweepArm

set_option autoImplicit false

structure Arm where
  position : Int
  forward : Bool
  deriving DecidableEq, Repr

def Arm.step (limit : Int) (arm : Arm) : Arm :=
  if arm.forward then
    if arm.position = limit then { arm with forward := false }
    else { arm with position := arm.position + 1 }
  else
    if arm.position = 0 then { arm with forward := true }
    else { arm with position := arm.position - 1 }

/-- The arm at the start of tick number `ticks`. -/
def Arm.after (limit : Int) (ticks : Nat) (arm : Arm) : Arm := (Arm.step limit)^[ticks] arm

/-- How many of the first `ticks` ticks move the arm. -/
def Arm.moves (limit : Int) : Nat → Arm → Nat
  | 0, _ => 0
  | ticks + 1, arm =>
      (if (arm.step limit).position = arm.position then 0 else 1) +
        Arm.moves limit ticks (arm.step limit)

def Arm.InRange (limit : Int) (arm : Arm) : Prop := 0 ≤ arm.position ∧ arm.position ≤ limit

instance (limit : Int) (arm : Arm) : Decidable (arm.InRange limit) :=
  inferInstanceAs (Decidable (_ ∧ _))

/-- Tick number `ticks` is the first that starts with the arm on the track. -/
def Arm.FirstOn (limit : Int) (arm : Arm) (track : Int) (ticks : Nat) : Prop :=
  (arm.after limit ticks).position = track ∧
    ∀ earlier < ticks, (arm.after limit earlier).position ≠ track

/-- The tracks between the arm and its next arrival at `track`, by way of the end where
it has to turn. -/
def Arm.travel (limit : Int) (arm : Arm) (track : Int) : Int :=
  if arm.forward then
    if arm.position ≤ track then track - arm.position
    else (limit - arm.position) + (limit - track)
  else
    if track ≤ arm.position then arm.position - track
    else arm.position + track

variable {limit : Int} {arm : Arm}

/-! ## One tick -/

theorem step_in_range (inRange : arm.InRange limit) : (arm.step limit).InRange limit := by
  obtain ⟨lower, upper⟩ := inRange
  unfold Arm.step Arm.InRange
  split_ifs <;> constructor <;> dsimp only <;> omega

theorem step_one_track (limit : Int) (arm : Arm) :
    (arm.step limit).position - arm.position ≤ 1 ∧
      arm.position - (arm.step limit).position ≤ 1 := by
  unfold Arm.step
  split_ifs <;> constructor <;> dsimp only <;> omega

theorem step_turns (turned : (arm.step limit).forward ≠ arm.forward) :
    arm.position = 0 ∨ arm.position = limit := by
  unfold Arm.step at turned
  split_ifs at turned with forward atLimit atZero
  · exact .inr atLimit
  · exact absurd rfl turned
  · exact .inl atZero
  · exact absurd rfl turned

theorem after_in_range (inRange : arm.InRange limit) (ticks : Nat) :
    (arm.after limit ticks).InRange limit := by
  induction ticks with
  | zero => exact inRange
  | succ ticks ih =>
      rw [Arm.after, Function.iterate_succ_apply']
      exact step_in_range ih

theorem after_add (limit : Int) (first second : Nat) (arm : Arm) :
    arm.after limit (first + second) = (arm.after limit first).after limit second := by
  rw [Nat.add_comm]
  exact Function.iterate_add_apply (Arm.step limit) second first arm

theorem moves_add (limit : Int) (first second : Nat) (arm : Arm) :
    arm.moves limit (first + second) =
      arm.moves limit first + (arm.after limit first).moves limit second := by
  induction first generalizing arm with
  | zero => simp [Arm.moves, Arm.after]
  | succ first ih =>
      have shifted : arm.after limit (first + 1) = (arm.step limit).after limit first := rfl
      rw [Nat.succ_add, Arm.moves, ih, shifted, Arm.moves, Nat.add_assoc]

/-! ## Runs in one direction -/

/-- Forward, short of the limit, every tick is a move up. -/
theorem climb (limit position : Int) (ticks : Nat) (within : position + ticks ≤ limit) :
    Arm.after limit ticks ⟨position, true⟩ = ⟨position + ticks, true⟩ ∧
      Arm.moves limit ticks ⟨position, true⟩ = ticks := by
  induction ticks generalizing position with
  | zero => simp [Arm.after, Arm.moves]
  | succ ticks ih =>
      have step : Arm.step limit ⟨position, true⟩ = ⟨position + 1, true⟩ := by
        have below : position ≠ limit := by omega
        simp [Arm.step, below]
      obtain ⟨arrived, moved⟩ := ih (position + 1) (by omega)
      constructor
      · have first : Arm.after limit (ticks + 1) ⟨position, true⟩ =
            Arm.after limit ticks (Arm.step limit ⟨position, true⟩) := rfl
        rw [first, step, arrived]
        congr 1
        omega
      · rw [Arm.moves, step, moved, if_neg (by simp), Nat.add_comm]

/-- Backward, short of zero, every tick is a move down. -/
theorem descend (limit position : Int) (ticks : Nat) (within : 0 ≤ position - ticks) :
    Arm.after limit ticks ⟨position, false⟩ = ⟨position - ticks, false⟩ ∧
      Arm.moves limit ticks ⟨position, false⟩ = ticks := by
  induction ticks generalizing position with
  | zero => simp [Arm.after, Arm.moves]
  | succ ticks ih =>
      have step : Arm.step limit ⟨position, false⟩ = ⟨position - 1, false⟩ := by
        have above : position ≠ 0 := by omega
        simp [Arm.step, above]
      obtain ⟨arrived, moved⟩ := ih (position - 1) (by omega)
      constructor
      · have first : Arm.after limit (ticks + 1) ⟨position, false⟩ =
            Arm.after limit ticks (Arm.step limit ⟨position, false⟩) := rfl
        rw [first, step, arrived]
        congr 1
        omega
      · rw [Arm.moves, step, moved, if_neg (by simp), Nat.add_comm]

/-! ## The next arrival -/

/-- Ahead of the arm, in the direction it moves. -/
theorem first_on_ahead (inRange : arm.InRange limit) {track : Int} {ticks : Nat}
    (onTrack : 0 ≤ track ∧ track ≤ limit)
    (ahead : track = if arm.forward then arm.position + ticks else arm.position - ticks) :
    arm.FirstOn limit track ticks ∧ arm.moves limit ticks = ticks := by
  obtain ⟨lower, upper⟩ := inRange
  obtain ⟨onLower, onUpper⟩ := onTrack
  obtain ⟨position, forward⟩ := arm
  dsimp only at lower upper ahead
  cases forward with
  | true =>
      simp only [if_true] at ahead
      obtain ⟨arrived, moved⟩ := climb limit position ticks (by omega)
      refine ⟨⟨by rw [arrived, ahead], fun earlier before => ?_⟩, moved⟩
      rw [(climb limit position earlier (by omega)).1]
      dsimp only
      omega
  | false =>
      simp only [Bool.false_eq_true, if_false] at ahead
      obtain ⟨arrived, moved⟩ := descend limit position ticks (by omega)
      refine ⟨⟨by rw [arrived, ahead], fun earlier before => ?_⟩, moved⟩
      rw [(descend limit position earlier (by omega)).1]
      dsimp only
      omega

/-- The run to the end of the sweep and the tick that turns the arm there. -/
theorem turn (inRange : arm.InRange limit) :
    ∃ ticks : Nat, (ticks : Int) = (if arm.forward then limit - arm.position else arm.position) ∧
      arm.after limit (ticks + 1) =
        ⟨if arm.forward then limit else 0, !arm.forward⟩ ∧
      arm.moves limit (ticks + 1) = ticks ∧
      ∀ earlier ≤ ticks, (arm.after limit earlier).position =
        if arm.forward then arm.position + earlier else arm.position - earlier := by
  obtain ⟨lower, upper⟩ := inRange
  obtain ⟨position, forward⟩ := arm
  dsimp only at lower upper ⊢
  cases forward with
  | true =>
      obtain ⟨ticks, length⟩ := Int.eq_ofNat_of_zero_le (show 0 ≤ limit - position by omega)
      obtain ⟨arrived, moved⟩ := climb limit position ticks (by omega)
      have atEnd : position + ticks = limit := by omega
      refine ⟨ticks, by simp [length], ?_, ?_, fun earlier before => ?_⟩
      · rw [after_add, arrived, atEnd]
        simp [Arm.after, Arm.step]
      · rw [moves_add, arrived, moved, atEnd]
        simp [Arm.moves, Arm.step]
      · rw [(climb limit position earlier (by omega)).1]
        rfl
  | false =>
      obtain ⟨ticks, length⟩ := Int.eq_ofNat_of_zero_le lower
      obtain ⟨arrived, moved⟩ := descend limit position ticks (by omega)
      have atEnd : position - ticks = 0 := by omega
      refine ⟨ticks, by simp [length], ?_, ?_, fun earlier before => ?_⟩
      · rw [after_add, arrived, atEnd]
        simp [Arm.after, Arm.step]
      · rw [moves_add, arrived, moved, atEnd]
        simp [Arm.moves, Arm.step]
      · rw [(descend limit position earlier (by omega)).1]
        rfl

/-- Behind the arm: it turns first and meets the track on the way back. -/
theorem first_on_behind (inRange : arm.InRange limit) {track : Int}
    (onTrack : 0 ≤ track ∧ track ≤ limit)
    (behind : if arm.forward then track < arm.position else arm.position < track) :
    ∃ ticks : Nat, arm.FirstOn limit track ticks ∧ (ticks : Int) ≤ 2 * limit ∧
      (arm.moves limit ticks : Int) = arm.travel limit track := by
  obtain ⟨lower, upper⟩ := inRange
  obtain ⟨onLower, onUpper⟩ := onTrack
  obtain ⟨run, length, turned, moved, passed⟩ := turn ⟨lower, upper⟩
  have turnedRange : (arm.after limit (run + 1)).InRange limit :=
    after_in_range ⟨lower, upper⟩ (run + 1)
  obtain ⟨back, distance⟩ := Int.eq_ofNat_of_zero_le
    (show 0 ≤ if arm.forward then limit - track else track by split <;> omega)
  have ahead : track = if (arm.after limit (run + 1)).forward
      then (arm.after limit (run + 1)).position + back
      else (arm.after limit (run + 1)).position - back := by
    rw [turned]
    cases forward : arm.forward <;> simp [forward] at distance ⊢ <;> omega
  obtain ⟨⟨arrived, avoided⟩, backMoves⟩ := first_on_ahead turnedRange ⟨onLower, onUpper⟩ ahead
  refine ⟨run + 1 + back, ⟨by rw [after_add]; exact arrived, ?_⟩, ?_, ?_⟩
  · intro earlier before
    by_cases first : earlier ≤ run
    · rw [passed earlier first]
      cases forward : arm.forward <;> simp [forward] at behind length ⊢ <;> omega
    · obtain ⟨rest, rfl⟩ := Nat.exists_eq_add_of_le (show run + 1 ≤ earlier by omega)
      rw [after_add]
      exact avoided rest (by omega)
  · cases forward : arm.forward <;> simp [forward] at behind length distance <;> omega
  · rw [moves_add, moved, backMoves]
    cases forward : arm.forward <;>
      simp [Arm.travel, forward] at behind length distance ⊢ <;> split <;> omega

/-- The arm arrives at every track, and `travel` counts its moves on the way. -/
theorem first_on_exists (inRange : arm.InRange limit) {track : Int}
    (onTrack : 0 ≤ track ∧ track ≤ limit) :
    ∃ ticks : Nat, arm.FirstOn limit track ticks ∧ (ticks : Int) ≤ 2 * limit ∧
      (arm.moves limit ticks : Int) = arm.travel limit track := by
  by_cases behind : if arm.forward then track < arm.position else arm.position < track
  · exact first_on_behind inRange onTrack behind
  · obtain ⟨lower, upper⟩ := inRange
    obtain ⟨ticks, length⟩ := Int.eq_ofNat_of_zero_le
      (show 0 ≤ if arm.forward then track - arm.position else arm.position - track by
        cases forward : arm.forward <;> simp [forward] at behind ⊢ <;> omega)
    have ahead : track =
        if arm.forward then arm.position + ticks else arm.position - ticks := by
      cases forward : arm.forward <;> simp [forward] at length ⊢ <;> omega
    obtain ⟨first, moved⟩ := first_on_ahead ⟨lower, upper⟩ onTrack ahead
    refine ⟨ticks, first, ?_, ?_⟩
    · cases forward : arm.forward <;> simp [forward] at length <;> omega
    · rw [moved]
      cases forward : arm.forward <;>
        simp [Arm.travel, forward] at behind length ⊢ <;> split <;> omega

theorem first_on_unique {track : Int} {first second : Nat}
    (firstOn : arm.FirstOn limit track first) (secondOn : arm.FirstOn limit track second) :
    first = second := by
  rcases Nat.lt_trichotomy first second with before | same | later
  · exact absurd firstOn.1 (secondOn.2 first before)
  · exact same
  · exact absurd secondOn.1 (firstOn.2 second later)

/-! ## The ticks to a track -/

/-- The ticks until the arm is on the track, the turn at an end of the range among them. -/
def Arm.arrival (limit : Int) (arm : Arm) (track : Int) : Nat :=
  (if arm.forward then
    if arm.position ≤ track then track - arm.position
    else limit - arm.position + 1 + (limit - track)
  else
    if track ≤ arm.position then arm.position - track
    else arm.position + 1 + track).toNat

theorem arrival_zero_iff (inRange : arm.InRange limit) {track : Int}
    (onTrack : 0 ≤ track ∧ track ≤ limit) :
    arm.arrival limit track = 0 ↔ track = arm.position := by
  obtain ⟨lower, upper⟩ := inRange
  unfold Arm.arrival
  split_ifs <;> omega

theorem arrival_le (inRange : arm.InRange limit) {track : Int}
    (onTrack : 0 ≤ track ∧ track ≤ limit) : (arm.arrival limit track : Int) ≤ 2 * limit := by
  obtain ⟨lower, upper⟩ := inRange
  unfold Arm.arrival
  split_ifs <;> omega

/-- A tick off the track brings the arm one tick closer. -/
theorem arrival_step (inRange : arm.InRange limit) {track : Int}
    (onTrack : 0 ≤ track ∧ track ≤ limit) (away : track ≠ arm.position) :
    (arm.step limit).arrival limit track + 1 = arm.arrival limit track := by
  obtain ⟨lower, upper⟩ := inRange
  obtain ⟨position, forward⟩ := arm
  dsimp only at lower upper away
  cases forward with
  | true =>
      by_cases atLimit : position = limit
      · simp only [Arm.step, Arm.arrival, atLimit, if_true, Bool.false_eq_true, if_false]
        split_ifs <;> omega
      · simp only [Arm.step, Arm.arrival, atLimit, if_true, if_false]
        split_ifs <;> omega
  | false =>
      by_cases atZero : position = 0
      · simp only [Arm.step, Arm.arrival, atZero, if_true, Bool.false_eq_true, if_false]
        split_ifs <;> omega
      · simp only [Arm.step, Arm.arrival, atZero, Bool.false_eq_true, if_false]
        split_ifs <;> omega

end Ribabari.SweepArm
