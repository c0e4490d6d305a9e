import Ribabari.Abstract.ViewGate

/-!
# The order of the printed entries

The disk view, the I/O view and the resource acquisition view print every entry they come
to, and their cursor has an entry whenever it goes on to the next one. What they miss is an
entry that is appended while the cursor is null, since the thread then puts the cursor on
the tail, which is that entry.
-/

namespace Ribabari.LogOrder

open Ribabari.KernelState Ribabari.LogViews Ribabari.LinkedList Ribabari.ViewGate
open Ribabari.TransitionSystem Ribabari.GatedQueue

set_option autoImplicit false

variable {α : Type*}

/-- A step that takes `next` from the cursor has one. -/
def NextSafe (view : LogView α) : Prop :=
  view.stage ≠ .advancing none ∧ view.stage ≠ .stepping none

/-- Nothing is printed once an entry has been appended while the cursor was null, which it
is at the end of the loop. -/
def PrintsInTime (past : List (LogView α × ViewEvent α)) : Prop :=
  ∀ before entry, before ++ [entry] <+: past → entry.2 = .refresh → prints entry.1 = true →
    ∀ earlier ∈ before, earlier.2 ≠ .refresh → ¬LeavingLoop earlier.1

variable {past : List (LogView α × ViewEvent α)} {view : LogView α} {garbage : α}

theorem in_time_of_never_null
    (never : ∀ entry ∈ past, entry.2 ≠ .refresh → ¬LeavingLoop entry.1) : PrintsInTime past := by
  intro before entry first _ _ earlier member appends
  exact never earlier (first.subset (List.mem_append_left _ member)) appends

theorem next_safe (sound : Sound view) : NextSafe view := by
  constructor
  · intro stage
    obtain ⟨line, -, same⟩ := cursor_line sound (.inl stage)
    simp at same
  · intro stage
    obtain ⟨line, -, same⟩ := cursor_line sound (.inr (.inr stage))
    simp at same

theorem whole_log_reaches (view : LogView α) :
    reaches wholeLog view = true ↔ ¬LeavingLoop view := by
  unfold reaches attached LeavingLoop wholeLog
  cases view.stage with
  | testing i => cases i <;> simp
  | _ => simp

theorem whole_log_drained (closed : reaches wholeLog view = false) :
    view.unread wholeLog = [] := by
  have null : LeavingLoop view := by
    by_contra open'
    rw [(whole_log_reaches view).mpr open'] at closed
    simp at closed
  rcases null with stage | stage <;> simp [LogView.unread, stage, linesFrom]

theorem in_time_iff_lossless :
    TakesLossless
        (past.map fun entry => (gateOf wholeLog entry.1, gateEvent wholeLog entry.1 entry.2)) ↔
      PrintsInTime past := by
  constructor
  · intro takes before entry first refresh printing earlier member appends
    have mapped := first.map
      fun entry => (gateOf wholeLog entry.1, gateEvent wholeLog entry.1 entry.2)
    rw [List.map_append, List.map_singleton] at mapped
    have take := (gate_take wholeLog entry.1 entry.2).mpr ⟨refresh, printing⟩
    have lossless := takes _ _ mapped take _ (List.mem_map_of_mem member)
      ((gate_put wholeLog earlier.1 earlier.2).mpr appends)
    exact (whole_log_reaches earlier.1).mp lossless
  · intro inTime before entry first take
    obtain ⟨origin, prior, split⟩ := List.prefix_map_iff.mp first
    obtain ⟨front, last, rfl, rfl, single⟩ := List.append_eq_map_iff.mp split
    obtain ⟨source, rfl, rfl⟩ := List.map_eq_singleton_iff.mp single
    obtain ⟨refresh, printing⟩ := (gate_take wholeLog source.1 source.2).mp take
    intro mapped mappedMember puts
    obtain ⟨earlier, member, rfl⟩ := List.mem_map.mp mappedMember
    have appends := (gate_put wholeLog earlier.1 earlier.2).mp puts
    exact (whole_log_reaches earlier.1).mpr
      (inTime front source prior refresh printing earlier member appends)

/-- In any run the cursor is there whenever `next` is taken from it. What has been printed
is at every moment a prefix of what has been appended, exactly when nothing is printed once
an entry has been appended while the cursor was null. -/
theorem printed_in_order (trace : Trace (viewSystem wholeLog garbage) past view) :
    (∀ seen ∈ visited past view, NextSafe seen) ∧
      ((∀ seen ∈ visited past view, seen.printed <+: seen.appended) ↔ PrintsInTime past) := by
  have sound := visited_sound trace
  refine ⟨fun seen member => next_safe (sound seen member), ?_⟩
  have distinct : view.appended.Nodup :=
    (sound view (last_visited _ _)).stores.holds.1.linked.distinct.of_map
  have drained : ∀ entry ∈ past.map fun entry =>
      (gateOf wholeLog entry.1, gateEvent wholeLog entry.1 entry.2),
      entry.1.isOpen = false → entry.1.held = [] := by
    intro mapped mappedMember closed
    obtain ⟨entry, member, rfl⟩ := List.mem_map.mp mappedMember
    exact congrArg (through wholeLog.stops) (whole_log_drained closed)
  have ordered := taken_in_order_iff (gate_trace trace) drained distinct
  rw [in_time_iff_lossless, visited_map, List.forall_mem_map] at ordered
  exact ordered

def diskEntry (track : Int) : DiskLogInfo where
  procName := ['p']
  procId := 1
  track := track
  isRead := true
  turnaround := 20

/-- The thread prints the first entry and waits, and prints the second one then. -/
def inOrderEvents : List (ViewEvent DiskLogInfo) :=
  .append (diskEntry 1) :: List.replicate 6 .refresh ++
    .append (diskEntry 2) :: List.replicate 3 .refresh

/-- The second entry is appended when the cursor has run off the list. -/
def skippingEvents : List (ViewEvent DiskLogInfo) :=
  .append (diskEntry 1) :: List.replicate 4 .refresh ++
    .append (diskEntry 2) :: List.replicate 6 .refresh ++
    .append (diskEntry 3) :: List.replicate 3 .refresh

def diskStart : LogView DiskLogInfo := (refreshDisk (diskEntry 0)).start

def diskPast (events : List (ViewEvent DiskLogInfo)) :
    List (LogView DiskLogInfo × ViewEvent DiskLogInfo) :=
  history (refreshDisk (diskEntry 0)) events diskStart

def diskView (events : List (ViewEvent DiskLogInfo)) : LogView DiskLogInfo :=
  (run (refreshDisk (diskEntry 0)) events diskStart).getD diskStart

theorem printed_in_order_sample :
    (diskView inOrderEvents).printed <+: (diskView inOrderEvents).appended ∧
      (diskView inOrderEvents).printed.length = 2 := by
  have trace : Trace (viewSystem wholeLog (diskEntry 0)) (diskPast inOrderEvents)
      (diskView inOrderEvents) := trace_history inOrderEvents .start rfl
  have inTime : PrintsInTime (diskPast inOrderEvents) := in_time_of_never_null (by decide)
  have ordered := (printed_in_order trace).2.mpr inTime
  exact ⟨ordered _ (last_visited _ _), by decide⟩

theorem entry_skipped :
    ¬∀ (garbage : DiskLogInfo) (past : List (LogView DiskLogInfo × ViewEvent DiskLogInfo))
        (view : LogView DiskLogInfo), Trace (refreshDisk garbage) past view →
      ∀ seen ∈ visited past view, seen.printed <+: seen.appended := by
  intro claimed
  have trace : Trace (refreshDisk (diskEntry 0)) (diskPast skippingEvents)
      (diskView skippingEvents) := trace_history skippingEvents .start rfl
  have ordered := claimed _ _ _ trace _ (last_visited _ _)
  exact absurd ordered (by decide)

end Ribabari.LogOrder
