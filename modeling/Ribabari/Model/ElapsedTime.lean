import Ribabari.Foundation.CLibrary

/-!
# The time tests of the loops

`cpu()` and `disk()` act when enough time has passed since `start`. The difference of two
clock readings is computed in a `long` and kept in an `int`, so the test sees the real
difference modulo 2^32 with a sign: a loop that looks often enough sees the real one, and
one that was busy elsewhere may not.
-/

namespace Ribabari.ElapsedTime

open Ribabari.CLibrary

set_option autoImplicit false

/-- A reading of `clock_gettime`. -/
structure Timespec where
  tvSec : Int
  tvNsec : Int
  normal : 0 ≤ tvNsec ∧ tvNsec ≤ 999999999

/-- The value a C `long` of 64 bits keeps. -/
def int64 (value : Int) : Int := Int.bmod value (2 ^ 64)

def oneSecondNs : Int := 1000000000

def milliseconds100 : Int := 50000000

/-- The difference in nanoseconds as both loops compute it. -/
def elapsedNs (start finish : Timespec) : Int :=
  int32 (int64 (int64 (int64 (finish.tvSec - start.tvSec) * 1000000000) +
    int64 (finish.tvNsec - start.tvNsec)))

/-- The test of `cpu()`. -/
def cpuElapsed (start finish : Timespec) : Bool := elapsedNs start finish ≥ oneSecondNs

/-- The test of `disk()`. -/
def diskElapsed (start finish : Timespec) : Bool := elapsedNs start finish ≥ milliseconds100

/-- The nanoseconds between two readings. -/
def realNs (start finish : Timespec) : Int :=
  (finish.tvSec - start.tvSec) * 1000000000 + (finish.tvNsec - start.tvNsec)

/-- The second reading is not earlier. -/
def Ordered (start finish : Timespec) : Prop :=
  start.tvSec < finish.tvSec ∨ (start.tvSec = finish.tvSec ∧ start.tvNsec ≤ finish.tvNsec)

instance (start finish : Timespec) : Decidable (Ordered start finish) :=
  inferInstanceAs (Decidable (_ ∨ _))

/-- The real difference is below the threshold, or what it leaves modulo 2^32 is an `int`
from the threshold on. -/
def Representable (threshold time : Int) : Prop :=
  time < threshold ∨ (threshold ≤ time % 2 ^ 32 ∧ time % 2 ^ 32 < 2 ^ 31)

instance (threshold time : Int) : Decidable (Representable threshold time) :=
  inferInstanceAs (Decidable (_ ∨ _))

variable {start finish : Timespec}

/-- The wrapping of the 64-bit operations does not show in 32 bits. -/
theorem elapsed_eq (start finish : Timespec) :
    elapsedNs start finish = int32 (realNs start finish) := by
  have narrow : ∀ value : Int, (value.bmod (2 ^ 64)).bmod (2 ^ 32) = value.bmod (2 ^ 32) :=
    fun value => Int.bmod_bmod_of_dvd ⟨2 ^ 32, rfl⟩
  have sum : ∀ left right : Int, (left.bmod (2 ^ 64) + right.bmod (2 ^ 64)).bmod (2 ^ 32) =
      (left + right).bmod (2 ^ 32) := by
    intro left right
    rw [← Int.bmod_add_bmod, narrow, Int.bmod_add_bmod, ← Int.add_bmod_bmod, narrow,
      Int.add_bmod_bmod]
  have product : ∀ left right : Int, (left.bmod (2 ^ 64) * right).bmod (2 ^ 32) =
      (left * right).bmod (2 ^ 32) := by
    intro left right
    rw [← Int.bmod_mul_bmod, narrow, Int.bmod_mul_bmod]
  simp only [elapsedNs, int32, int64, realNs]
  rw [narrow, sum, ← Int.bmod_add_bmod, product, Int.bmod_add_bmod]

theorem ordered_nonneg (ordered : Ordered start finish) : 0 ≤ realNs start finish := by
  have early := start.normal
  have late := finish.normal
  unfold realNs
  rcases ordered with before | ⟨same, within⟩ <;> omega

/-- A value in 32 bits passes a threshold when its remainder does and is positive. -/
theorem int32_reaches_iff {threshold : Int} (positive : 0 < threshold) (time : Int) :
    threshold ≤ int32 time ↔ threshold ≤ time % 2 ^ 32 ∧ time % 2 ^ 32 < 2 ^ 31 := by
  rw [int32, Int.bmod_eq_emod]
  split <;> omega

/-- The test is right about a real difference exactly when that is representable. -/
theorem test_right_iff {threshold : Int} (positive : 0 < threshold) (small : threshold < 2 ^ 31)
    (ordered : Ordered start finish) :
    (threshold ≤ elapsedNs start finish ↔ threshold ≤ realNs start finish) ↔
      Representable threshold (realNs start finish) := by
  have nonneg := ordered_nonneg ordered
  rw [elapsed_eq, int32_reaches_iff positive, Representable]
  omega

/-- Both loops are right about the time that has passed exactly when the difference of the
readings is representable for their threshold. -/
theorem elapsed_tests_right_iff (ordered : Ordered start finish) :
    ((cpuElapsed start finish = true ↔ oneSecondNs ≤ realNs start finish) ↔
        Representable oneSecondNs (realNs start finish)) ∧
      ((diskElapsed start finish = true ↔ milliseconds100 ≤ realNs start finish) ↔
        Representable milliseconds100 (realNs start finish)) := by
  simp only [cpuElapsed, diskElapsed, ge_iff_le, decide_eq_true_eq]
  exact ⟨test_right_iff (by decide) (by decide) ordered,
    test_right_iff (by decide) (by decide) ordered⟩

def clockStart : Timespec where
  tvSec := 0
  tvNsec := 0
  normal := by decide

def afterSeconds (seconds : Int) : Timespec where
  tvSec := seconds
  tvNsec := 0
  normal := by decide

theorem elapsed_tests_right_iff_sample :
    (cpuElapsed clockStart (afterSeconds 2) = true ↔
        oneSecondNs ≤ realNs clockStart (afterSeconds 2)) ∧
      (diskElapsed clockStart (afterSeconds 2) = true ↔
        milliseconds100 ≤ realNs clockStart (afterSeconds 2)) := by
  have ordered : Ordered clockStart (afterSeconds 2) := by decide
  obtain ⟨cpu, disk⟩ := elapsed_tests_right_iff ordered
  exact ⟨cpu.mpr (by decide), disk.mpr (by decide)⟩

/-- After three seconds the difference is a negative `int`. -/
theorem three_seconds_unnoticed :
    Ordered clockStart (afterSeconds 3) ∧
      realNs clockStart (afterSeconds 3) = 3 * oneSecondNs ∧
      elapsedNs clockStart (afterSeconds 3) = -1294967296 ∧
      ¬(cpuElapsed clockStart (afterSeconds 3) = true ↔
        oneSecondNs ≤ realNs clockStart (afterSeconds 3)) ∧
      ¬(diskElapsed clockStart (afterSeconds 3) = true ↔
        milliseconds100 ≤ realNs clockStart (afterSeconds 3)) := by
  decide

/-! ## Loops that look often -/

/-- Every test of a loop is right: the loop looks at each of the readings, and an elapsed
test moves `start` to the reading. -/
def AllRight (threshold : Int) : Timespec → List Timespec → Prop
  | _, [] => True
  | start, now :: later =>
      (threshold ≤ elapsedNs start now ↔ threshold ≤ realNs start now) ∧
        AllRight threshold (if threshold ≤ elapsedNs start now then now else start) later

/-- Each reading follows the one before it by less than what an `int` has above the
threshold. -/
def Frequent (threshold : Int) : Timespec → List Timespec → Prop
  | _, [] => True
  | last, now :: later =>
      (Ordered last now ∧ threshold + realNs last now < 2 ^ 31) ∧ Frequent threshold now later

theorem real_trans (first second third : Timespec) :
    realNs first third = realNs first second + realNs second third := by
  unfold realNs
  omega

/-- The time that has passed at the last reading is below the threshold, or `start` has just
been moved there. -/
theorem frequent_tests_right {threshold : Int} (positive : 0 < threshold)
    (small : threshold < 2 ^ 31) {last : Timespec} {readings : List Timespec}
    (since : 0 ≤ realNs start last ∧ realNs start last < threshold)
    (frequent : Frequent threshold last readings) : AllRight threshold start readings := by
  induction readings generalizing start last with
  | nil => trivial
  | cons now later ih =>
      obtain ⟨⟨ordered, gap⟩, frequent⟩ := frequent
      have passed := ordered_nonneg ordered
      have total := real_trans start last now
      have exact32 : elapsedNs start now = realNs start now := by
        rw [elapsed_eq]
        exact int32_of_range ⟨by omega, by omega⟩
      refine ⟨by rw [exact32], ?_⟩
      rw [exact32]
      split
      case isTrue =>
          have here : realNs now now = 0 := by simp [realNs]
          exact ih ⟨by omega, by omega⟩ frequent
      case isFalse below => exact ih ⟨by omega, by omega⟩ frequent

/-- A loop that starts at a reading and looks often is never wrong about the time. -/
theorem polling_loop_is_right {threshold : Int} (positive : 0 < threshold)
    (small : threshold < 2 ^ 31) {readings : List Timespec}
    (frequent : Frequent threshold start readings) : AllRight threshold start readings := by
  have here : realNs start start = 0 := by simp [realNs]
  exact frequent_tests_right positive small ⟨by omega, by omega⟩ frequent

end Ribabari.ElapsedTime
