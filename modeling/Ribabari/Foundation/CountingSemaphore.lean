import Mathlib.Algebra.BigOperators.Group.Finset.Basic
import Mathlib.Algebra.BigOperators.Group.Finset.Piecewise
import Mathlib.Algebra.Order.BigOperators.Group.Finset
import Mathlib.Data.Fintype.Card
import Mathlib.Data.Fintype.EquivFin
import Mathlib.Data.Fintype.Sets
import Mathlib.Order.WellFounded

/-!
# Counting semaphores with a queue

The counter of a semaphore goes down at every acquisition and up at every release,
whoever waits. A negative counter is the length of the queue, and a release hands
the unit it gives back to the head of the queue. `taken` says how many more units a
party has asked for than given back, so it includes units asked for in the queue.
-/

namespace Ribabari.CountingSemaphore

open Finset

set_option autoImplicit false

variable {Party : Type*}

structure Balanced (parties : Finset Party) (permits value : Int) (queue : List Party)
    (taken : Party → Int) : Prop where
  value_eq : value = permits - ∑ party ∈ parties, taken party
  queued : (queue.length : Int) = max 0 (-value)
  distinct : queue.Nodup
  listed : ∀ party ∈ queue, party ∈ parties

namespace Balanced

variable {parties : Finset Party} {permits value : Int} {queue : List Party}
  {taken taken' : Party → Int}

theorem initial (parties : Finset Party) {permits : Int} (nonneg : 0 ≤ permits)
    (untouched : ∀ party ∈ parties, taken party = 0) :
    Balanced parties permits permits [] taken where
  value_eq := by rw [sum_eq_zero untouched, sub_zero]
  queued := by
    rw [List.length_nil]
    omega
  distinct := List.nodup_nil
  listed := fun _ member => absurd member List.not_mem_nil

/-- Parties that have taken nothing may join. -/
theorem widen {wider : Finset Party} (balanced : Balanced parties permits value queue taken)
    (grows : parties ⊆ wider) (new : ∀ party ∈ wider, party ∉ parties → taken party = 0) :
    Balanced wider permits value queue taken where
  value_eq := by rw [← sum_subset grows new, balanced.value_eq]
  queued := balanced.queued
  distinct := balanced.distinct
  listed := fun party member => grows (balanced.listed party member)

theorem congr (balanced : Balanced parties permits value queue taken)
    (same : ∀ party ∈ parties, taken' party = taken party) :
    Balanced parties permits value queue taken' where
  value_eq := by rw [sum_congr rfl same, balanced.value_eq]
  queued := balanced.queued
  distinct := balanced.distinct
  listed := balanced.listed

variable [DecidableEq Party]

/-- The sum over the parties changes with the one whose share changes. -/
theorem sum_changed {party : Party} (change : Int) (member : party ∈ parties)
    (here : taken' party = taken party + change)
    (others : ∀ other, other ≠ party → taken' other = taken other) :
    ∑ other ∈ parties, taken' other = (∑ other ∈ parties, taken other) + change := by
  have rest : (parties.erase party).sum taken' = (parties.erase party).sum taken :=
    sum_congr rfl fun other left => others other (ne_of_mem_erase left)
  rw [← add_sum_erase parties taken' member, ← add_sum_erase parties taken member, here, rest]
  exact add_right_comm _ _ _

/-- An acquisition: the caller queues itself when the counter became negative. -/
theorem acquire (balanced : Balanced parties permits value queue taken) {party : Party}
    (member : party ∈ parties) (awake : party ∉ queue)
    (here : taken' party = taken party + 1)
    (others : ∀ other, other ≠ party → taken' other = taken other) :
    Balanced parties permits (value - 1)
      (if value - 1 < 0 then queue ++ [party] else queue) taken' := by
  have value_eq := balanced.value_eq
  have queued := balanced.queued
  have total := sum_changed 1 member here others
  split
  case isTrue short =>
      refine
        { value_eq := by omega
          queued := ?_
          distinct := ?_
          listed := ?_ }
      · rw [List.length_append, List.length_singleton]
        omega
      · exact List.nodup_append.mpr ⟨balanced.distinct, List.nodup_singleton _,
          fun other old new last same => awake (by
            rwa [← List.mem_singleton.mp last, ← same])⟩
      · intro other queuedNow
        rcases List.mem_append.mp queuedNow with old | new
        · exact balanced.listed other old
        · rwa [List.mem_singleton.mp new]
  case isFalse =>
      exact
        { value_eq := by omega
          queued := by omega
          distinct := balanced.distinct
          listed := balanced.listed }

/-- A release: the head of the queue leaves it when the counter was negative. -/
theorem release (balanced : Balanced parties permits value queue taken) {party : Party}
    (member : party ∈ parties) (here : taken' party = taken party - 1)
    (others : ∀ other, other ≠ party → taken' other = taken other) :
    Balanced parties permits (value + 1) (if value + 1 ≤ 0 then queue.tail else queue) taken' := by
  have value_eq := balanced.value_eq
  have queued := balanced.queued
  have total := sum_changed (-1) member (by omega) others
  split
  case isTrue waiting =>
      refine
        { value_eq := by omega
          queued := ?_
          distinct := balanced.distinct.tail
          listed := fun other left => balanced.listed other (List.mem_of_mem_tail left) }
      rw [List.length_tail]
      omega
  case isFalse =>
      exact
        { value_eq := by omega
          queued := by omega
          distinct := balanced.distinct
          listed := balanced.listed }

/-- What the parties outside the queue have taken, when everybody in the queue
waits for one unit: all permits while somebody waits, and never more. -/
theorem taken_outside (balanced : Balanced parties permits value queue taken)
    (asked : ∀ party ∈ queue, taken party = 1) :
    ∑ party ∈ parties with party ∉ queue, taken party = permits - max 0 value := by
  have inside : ∑ party ∈ parties with party ∈ queue, taken party = queue.length := by
    have same : parties.filter (fun party => party ∈ queue) = queue.toFinset := by
      ext party
      simp only [mem_filter, List.mem_toFinset]
      exact ⟨And.right, fun member => ⟨balanced.listed party member, member⟩⟩
    rw [same, sum_congr rfl fun party member => asked party (List.mem_toFinset.mp member)]
    simp [List.toFinset_card_of_nodup balanced.distinct]
  have parts := sum_filter_add_sum_filter_not parties (fun party => party ∈ queue) taken
  have value_eq := balanced.value_eq
  have queued := balanced.queued
  omega

/-- While somebody waits, somebody outside the queue holds a unit. -/
theorem exists_holder (balanced : Balanced parties permits value queue taken)
    (asked : ∀ party ∈ queue, taken party = 1) (positive : 0 < permits)
    (waiting : queue ≠ []) : ∃ party ∈ parties, party ∉ queue ∧ 0 < taken party := by
  have length : 0 < queue.length := List.length_pos_iff.mpr waiting
  have queued := balanced.queued
  have outside := balanced.taken_outside asked
  have sum : 0 < ∑ party ∈ parties with party ∉ queue, taken party := by omega
  obtain ⟨party, member, holds⟩ := exists_lt_of_sum_lt (f := fun _ => (0 : Int)) (by simpa using sum)
  obtain ⟨listed, awake⟩ := mem_filter.mp member
  exact ⟨party, listed, awake, holds⟩

/-- With one permit and shares that are never negative, one party at most is
outside the queue with a unit. -/
theorem holder_unique (balanced : Balanced parties 1 value queue taken)
    (asked : ∀ party ∈ queue, taken party = 1) (shares : ∀ party ∈ parties, 0 ≤ taken party)
    {first second : Party} (firstListed : first ∈ parties) (secondListed : second ∈ parties)
    (firstAwake : first ∉ queue) (secondAwake : second ∉ queue)
    (firstHolds : taken first = 1) (secondHolds : taken second = 1) : first = second := by
  by_contra different
  have outside := balanced.taken_outside asked
  have firstMember : first ∈ parties.filter (fun party => party ∉ queue) :=
    mem_filter.mpr ⟨firstListed, firstAwake⟩
  have secondMember : second ∈ (parties.filter (fun party => party ∉ queue)).erase first :=
    mem_erase.mpr ⟨Ne.symm different, mem_filter.mpr ⟨secondListed, secondAwake⟩⟩
  have rest : 0 ≤ ∑ party ∈ ((parties.filter fun party => party ∉ queue).erase first).erase second,
      taken party :=
    sum_nonneg fun party member =>
      shares party (mem_filter.mp (mem_of_mem_erase (mem_of_mem_erase member))).1
  rw [← add_sum_erase _ taken firstMember, ← add_sum_erase _ taken secondMember] at outside
  omega

end Balanced

/-! ## Ordered acquisition -/


/-- If every contended lock is held by a live party that does not wait for it, and
nobody waits for a lock below one it holds, some live party waits for nothing: go
to the holder of a lock that is waited for, which waits for a higher one, and so on. -/
theorem somebody_runs {Lock : Type*} (before : Lock → Lock → Prop) [IsStrictOrder Lock before]
    {live : Finset Party} (nonempty : live.Nonempty) (waitsFor holds : Party → Lock → Prop)
    (served : ∀ party ∈ live, ∀ lock, waitsFor party lock → ∃ holder ∈ live, holds holder lock)
    (ordered : ∀ party ∈ live, ∀ wanted owned, waitsFor party wanted → holds party owned →
      before owned wanted) :
    ∃ party ∈ live, ∀ lock, ¬waitsFor party lock := by
  by_contra stuck
  push Not at stuck
  choose wanted waits using fun party : live => stuck party.1 party.2
  let above (first second : live) := before (wanted second) (wanted first)
  have transitive : IsTrans live above :=
    ⟨fun _ _ _ first second => IsTrans.trans (r := before) _ _ _ second first⟩
  have irreflexive : Std.Irrefl above := ⟨fun party => Std.Irrefl.irrefl (wanted party)⟩
  have founded : WellFounded above := Finite.wellFounded_of_trans_of_irrefl above
  obtain ⟨first, member⟩ := nonempty
  obtain ⟨highest, -, maximal⟩ := founded.has_min Set.univ ⟨⟨first, member⟩, trivial⟩
  obtain ⟨holder, holderLive, holding⟩ := served highest highest.2 _ (waits highest)
  exact maximal ⟨holder, holderLive⟩ trivial
    (ordered holder holderLive _ _ (waits ⟨holder, holderLive⟩) holding)

end Ribabari.CountingSemaphore
