import Mathlib.Data.List.Sort
import Ribabari.Foundation.TransitionSystem

/-!
# Calendars

Items are entered for a date, and each tick of the clock serves those whose date it is,
in the order of entry. Over a whole run this sorts: what has been served by now is what
was entered for earlier dates, in the order of the dates, and items of one date keep the
order of their entry.
-/

namespace Ribabari.DueCalendar

open Ribabari.TransitionSystem

set_option autoImplicit false

variable {Item : Type*}

/-! ## Sorting by date -/

def DueBefore (first second : Nat × Item) : Prop := first.1 ≤ second.1

instance : DecidableRel (@DueBefore Item) := fun first second =>
  inferInstanceAs (Decidable (first.1 ≤ second.1))

/-- What is inserted goes before everything that it is due before. -/
theorem ordered_insert_append {entry : Nat × Item} (front : List (Nat × Item))
    {back : List (Nat × Item)} (before : ∀ other ∈ back, DueBefore entry other) :
    (front ++ back).orderedInsert DueBefore entry =
      front.orderedInsert DueBefore entry ++ back := by
  induction front with
  | nil =>
      cases back with
      | nil => rfl
      | cons other rest =>
          exact List.orderedInsert_cons_of_le DueBefore rest (before other List.mem_cons_self)
  | cons other front ih =>
      by_cases due : DueBefore entry other
      · rw [List.cons_append, List.orderedInsert_cons_of_le _ _ due,
          List.orderedInsert_cons_of_le _ _ due]
        rfl
      · rw [List.cons_append, List.orderedInsert_of_not_le _ _ due,
          List.orderedInsert_of_not_le _ _ due, ih]
        rfl

/-- What is due later than the front goes to the back. -/
theorem ordered_insert_after {entry : Nat × Item} {front : List (Nat × Item)}
    (later : ∀ other ∈ front, ¬DueBefore entry other) (back : List (Nat × Item)) :
    (front ++ back).orderedInsert DueBefore entry =
      front ++ back.orderedInsert DueBefore entry := by
  induction front with
  | nil => rfl
  | cons other front ih =>
      rw [List.cons_append, List.orderedInsert_of_not_le _ _ (later other List.mem_cons_self),
        ih fun item member => later item (List.mem_cons_of_mem _ member)]
      rfl

/-- Everything due before a date, in order. -/
def dueBy (now : Nat) (entries : List (Nat × Item)) : List (Nat × Item) :=
  (entries.filter fun entry => entry.1 < now).insertionSort DueBefore

theorem due_by_lt {now : Nat} {entries : List (Nat × Item)} {entry : Nat × Item}
    (member : entry ∈ dueBy now entries) : entry ∈ entries ∧ entry.1 < now := by
  have listed := (List.mem_insertionSort DueBefore).mp member
  exact ⟨List.mem_of_mem_filter listed, of_decide_eq_true (List.mem_filter.mp listed).2⟩

/-- The next date follows, in the order of entry. -/
theorem due_by_succ (now : Nat) (entries : List (Nat × Item)) :
    dueBy (now + 1) entries = dueBy now entries ++ entries.filter fun entry => entry.1 = now := by
  induction entries with
  | nil => rfl
  | cons entry entries ih =>
      have today : ∀ other ∈ entries.filter (fun entry => entry.1 = now), other.1 = now :=
        fun other member => of_decide_eq_true (List.mem_filter.mp member).2
      unfold dueBy at ih ⊢
      rcases Nat.lt_trichotomy entry.1 now with early | onDate | late
      · have kept : entry.1 < now + 1 := by omega
        have skipped : ¬entry.1 = now := by omega
        simp only [List.filter_cons, early, kept, skipped, decide_true, decide_false,
          if_true, Bool.false_eq_true, if_false, List.insertionSort_cons]
        rw [ih]
        apply ordered_insert_append
        intro other member
        have date := today other member
        unfold DueBefore
        omega
      · subst onDate
        have kept : entry.1 < entry.1 + 1 := Nat.lt_succ_self _
        have skipped : ¬entry.1 < entry.1 := Nat.lt_irrefl _
        simp only [List.filter_cons, kept, skipped, decide_true, decide_false, if_true,
          Bool.false_eq_true, if_false, List.insertionSort_cons]
        rw [ih, ordered_insert_after]
        · congr 1
          apply ordered_insert_append []
          intro other member
          have date := today other member
          unfold DueBefore
          omega
        · intro other member
          have date := (due_by_lt member).2
          unfold DueBefore
          omega
      · have kept : ¬entry.1 < now + 1 := by omega
        have skipped : ¬entry.1 < now := by omega
        have other : ¬entry.1 = now := by omega
        simp only [List.filter_cons, kept, skipped, other, decide_false, Bool.false_eq_true,
          if_false]
        exact ih

/-- What is due later does not matter. -/
theorem due_by_concat {now : Nat} (entries : List (Nat × Item)) {entry : Nat × Item}
    (later : now ≤ entry.1) : dueBy now (entries ++ [entry]) = dueBy now entries := by
  have skipped : ¬entry.1 < now := by omega
  simp [dueBy, List.filter_append, skipped]

/-! ## The calendar -/

structure Calendar (Item : Type*) where
  now : Nat
  entries : List (Nat × Item)
  waiting : List (Nat × Item)
  served : List (Nat × Item)

inductive CalendarEvent (Item : Type*) where
  | enter (delay : Nat) (item : Item)
  | tick

def Calendar.empty : Calendar Item := ⟨0, [], [], []⟩

def Calendar.next (calendar : Calendar Item) : CalendarEvent Item → Calendar Item
  | .enter delay item =>
      { calendar with
        entries := calendar.entries ++ [(calendar.now + delay, item)]
        waiting := calendar.waiting ++ [(calendar.now + delay, item)] }
  | .tick =>
      { calendar with
        now := calendar.now + 1
        waiting := calendar.waiting.filter fun entry => ¬entry.1 = calendar.now
        served := calendar.served ++ calendar.waiting.filter fun entry => entry.1 = calendar.now }

def calendarSystem (Item : Type*) : System (Calendar Item) (CalendarEvent Item) where
  start := .empty
  step calendar event := some (calendar.next event)

structure Calendar.InOrder (calendar : Calendar Item) : Prop where
  served : calendar.served = dueBy calendar.now calendar.entries
  waiting : calendar.waiting = calendar.entries.filter fun entry => calendar.now ≤ entry.1

theorem next_in_order {calendar : Calendar Item} (inOrder : calendar.InOrder)
    (event : CalendarEvent Item) : (calendar.next event).InOrder := by
  obtain ⟨served, waiting⟩ := inOrder
  cases event with
  | enter delay item =>
      constructor
      · change calendar.served = dueBy calendar.now (calendar.entries ++ _)
        rw [due_by_concat _ (Nat.le_add_right _ _)]
        exact served
      · change calendar.waiting ++ _ =
          (calendar.entries ++ _).filter fun entry => calendar.now ≤ entry.1
        rw [List.filter_append, ← waiting]
        simp
  | tick =>
      have today : (calendar.waiting.filter fun entry => entry.1 = calendar.now) =
          calendar.entries.filter fun entry => entry.1 = calendar.now := by
        rw [waiting, List.filter_filter]
        apply List.filter_congr
        intro entry _
        rw [Bool.eq_iff_iff, Bool.and_eq_true]
        simp only [decide_eq_true_eq]
        omega
      constructor
      · change calendar.served ++ _ = dueBy (calendar.now + 1) calendar.entries
        rw [due_by_succ, ← served, today]
      · change calendar.waiting.filter (fun entry => ¬entry.1 = calendar.now) =
          calendar.entries.filter fun entry => calendar.now + 1 ≤ entry.1
        rw [waiting, List.filter_filter]
        apply List.filter_congr
        intro entry _
        rw [Bool.eq_iff_iff, Bool.and_eq_true]
        simp only [decide_eq_true_eq]
        omega

theorem reachable_in_order {calendar : Calendar Item}
    (reached : Reachable (calendarSystem Item) calendar) : calendar.InOrder := by
  apply reachable_invariant Calendar.InOrder reached
  · exact ⟨rfl, rfl⟩
  · intro before event after prior inOrder fired
    obtain rfl := Option.some.inj fired
    exact next_in_order inOrder event

end Ribabari.DueCalendar
