import Mathlib.Algebra.Order.Ring.Int
import Mathlib.Algebra.Order.BigOperators.Group.List
import Ribabari.Foundation.TransitionSystem
import Ribabari.Memory.PagedCode

/-!
# The remaining memory

A load floors the remaining bytes at zero and adds what the swap pass reports, a
free caps them at the maximum. Neither undoes the other, but the remaining bytes
never fall under the maximum less the sizes in the table, and the cap is reached
whenever the table empties.
-/

namespace Ribabari.RemainingMemory

open Ribabari.FirstMatch Ribabari.SegmentMemory Ribabari.PagedCode
open Ribabari.TransitionSystem

set_option autoImplicit false

inductive MemoryEvent where
  | load (req : MemoryRequest) (fresh : Nat → Page)
  | free (sid : Int)

def memoryStep (table : SegmentTable) : MemoryEvent → Option SegmentTable
  | .load req fresh => some (memReqLoad req fresh table)
  | .free sid => segmentFree table sid

def memorySystem : System SegmentTable MemoryEvent where
  start := segmentTableInit
  step := memoryStep

/-- The bytes of the segments in the table. -/
def allocated (table : SegmentTable) : Int := (table.segList.map Segment.size).sum

/-- The request's segment size is not negative. -/
def Sized : MemoryEvent → Prop
  | .load req _ => 0 ≤ req.proc.segSize
  | .free _ => True

/-- The event asks for no more than what remains. -/
def Fits (table : SegmentTable) : MemoryEvent → Prop
  | .load req _ => req.proc.segSize * kilobyte ≤ table.remaining
  | .free _ => True

structure Bounded (table : SegmentTable) : Prop where
  sizes : ∀ seg ∈ table.segList, 0 ≤ seg.size
  nonneg : 0 ≤ table.remaining
  lower : maxMemSize - allocated table ≤ table.remaining
  emptied : table.segList = [] → table.remaining ≤ maxMemSize

variable {table after : SegmentTable}

theorem bounded_init : Bounded segmentTableInit where
  sizes := by simp [segmentTableInit]
  nonneg := by decide
  lower := by decide
  emptied := by decide

/-! ## Loading -/

theorem page_grows (page : Page) (freed : Int) :
    freed ≤ if page.used then freed else freed + pageSize := by
  unfold pageSize kilobyte
  split <;> omega

theorem swap_pages_grows (size : Int) (pages : List Page) (freed : Int) :
    freed ≤ (swapPages size pages freed).2 := by
  induction pages generalizing freed with
  | nil => exact Int.le_refl freed
  | cons page rest ih =>
      have grown := page_grows page freed
      rw [swapPages]
      dsimp only
      by_cases enough : (if page.used then freed else freed + pageSize) ≥ size
      · rw [if_pos enough]
        exact grown
      · rw [if_neg enough]
        exact grown.trans (ih _)

theorem swap_grows (size : Int) (segs : List Segment) (freed : Int) :
    freed ≤ (memoryPageSwap size segs freed).2 := by
  induction segs generalizing freed with
  | nil => exact Int.le_refl freed
  | cons seg rest ih => exact (swap_pages_grows size seg.pageTable freed).trans (ih _)

theorem load_sizes (req : MemoryRequest) (fresh : Nat → Page) (table : SegmentTable) :
    (memReqLoad req fresh table).segList.map Segment.size =
      table.segList.map Segment.size ++ [req.proc.segSize * kilobyte] := by
  have content := congrArg (List.map fun content => content.2.1) (load_content req fresh table)
  have header := (populate_header (segmentCreate req fresh) req.code).2
  simp only [List.map_append, List.map_map, List.map_singleton] at content
  exact content.trans (congrArg (table.segList.map Segment.size ++ [·]) header)

/-- What a load leaves: what it did not take, or what the swap pass freed. -/
theorem load_remaining (req : MemoryRequest) (fresh : Nat → Page) (table : SegmentTable) :
    (req.proc.segSize * kilobyte ≤ table.remaining ∧
        (memReqLoad req fresh table).remaining =
          table.remaining - req.proc.segSize * kilobyte) ∨
      (table.remaining < req.proc.segSize * kilobyte ∧
        0 ≤ (memReqLoad req fresh table).remaining) := by
  have size : (segmentCreate req fresh).size = req.proc.segSize * kilobyte := rfl
  have freed := swap_grows (segmentCreate req fresh).size table.segList 0
  by_cases short : table.remaining - (segmentCreate req fresh).size < 0
  · refine .inr ⟨by omega, ?_⟩
    simp only [memReqLoad, segmentAdd, if_pos short]
    omega
  · refine .inl ⟨by omega, ?_⟩
    simp only [memReqLoad, segmentAdd, if_neg short]
    omega

theorem load_bounded (bounded : Bounded table) {req : MemoryRequest} (fresh : Nat → Page)
    (sized : 0 ≤ req.proc.segSize) : Bounded (memReqLoad req fresh table) := by
  have sizes := load_sizes req fresh table
  have size : 0 ≤ req.proc.segSize * kilobyte := Int.mul_nonneg sized (by decide)
  have total : allocated (memReqLoad req fresh table) =
      allocated table + req.proc.segSize * kilobyte := by
    simp [allocated, sizes]
  have remaining := load_remaining req fresh table
  have nonneg := bounded.nonneg
  have lower := bounded.lower
  refine
    { sizes := ?_
      nonneg := by omega
      lower := by omega
      emptied := ?_ }
  · have old : ∀ size ∈ table.segList.map Segment.size, 0 ≤ size := by
      simpa using bounded.sizes
    have all : ∀ size ∈ (memReqLoad req fresh table).segList.map Segment.size, 0 ≤ size := by
      rw [sizes]
      intro other member
      rcases List.mem_append.mp member with earlier | last
      · exact old other earlier
      · rwa [List.mem_singleton.mp last]
    simpa using all
  · intro empty
    simp [empty] at sizes

/-! ## Freeing -/

/-- A free takes the first segment of its id out of the list. -/
theorem free_split {sid : Int} (freed : segmentFree table sid = some after) :
    ∃ before seg rest, table.segList = before ++ seg :: rest ∧ (seg.id == sid) = true ∧
      (∀ other ∈ before, (other.id == sid) = false) ∧
      after =
        { table with
          segList := before ++ rest
          remaining := min maxMemSize (table.remaining + seg.size) } := by
  obtain ⟨seg, found, rfl⟩ := free_inv freed
  obtain ⟨before, rest, split, matched, skipped⟩ := find_split found
  refine ⟨before, seg, rest, split, matched, skipped, ?_⟩
  rw [split, erase_first_append skipped matched]

theorem free_allocated {sid : Int} (freed : segmentFree table sid = some after) :
    ∃ seg ∈ table.segList, allocated table = seg.size + allocated after ∧
      after.segList.Sublist table.segList ∧
      after.remaining = min maxMemSize (table.remaining + seg.size) := by
  obtain ⟨before, seg, rest, split, -, -, rfl⟩ := free_split freed
  refine ⟨seg, by simp [split], ?_, ?_, rfl⟩
  · simp only [allocated, split, List.map_append, List.map_cons, List.sum_append, List.sum_cons]
    omega
  · rw [split]
    exact (List.Sublist.refl before).append (List.sublist_cons_self seg rest)

theorem allocated_nonneg (bounded : Bounded table) : 0 ≤ allocated table :=
  List.sum_nonneg (by simpa using bounded.sizes)

theorem free_bounded (bounded : Bounded table) {sid : Int}
    (freed : segmentFree table sid = some after) : Bounded after := by
  obtain ⟨seg, member, total, kept, remaining⟩ := free_allocated freed
  have sizes : ∀ other ∈ after.segList, 0 ≤ other.size :=
    fun other left => bounded.sizes other (kept.subset left)
  have size := bounded.sizes seg member
  have rest : 0 ≤ allocated after := List.sum_nonneg (by simpa using sizes)
  have positive : 0 ≤ maxMemSize := by decide
  have nonneg := bounded.nonneg
  have lower := bounded.lower
  exact
    { sizes := sizes
      nonneg := by omega
      lower := by omega
      emptied := fun _ => by omega }

/-! ## Runs -/

theorem step_bounded (bounded : Bounded table) {event : MemoryEvent} (sized : Sized event)
    (fired : memoryStep table event = some after) : Bounded after := by
  cases event with
  | load req fresh =>
      obtain rfl := Option.some.inj fired
      exact load_bounded bounded fresh sized
  | free sid => exact free_bounded bounded fired

/-- While every load fits, the remaining bytes are exactly the unallocated ones. -/
theorem step_exact (bounded : Bounded table)
    (unallocated : table.remaining = maxMemSize - allocated table) {event : MemoryEvent}
    (fits : Fits table event) (fired : memoryStep table event = some after) :
    after.remaining = maxMemSize - allocated after := by
  cases event with
  | load req fresh =>
      obtain rfl := Option.some.inj fired
      have sizes := load_sizes req fresh table
      have total : allocated (memReqLoad req fresh table) =
          allocated table + req.proc.segSize * kilobyte := by
        simp [allocated, sizes]
      have within : req.proc.segSize * kilobyte ≤ table.remaining := fits
      have remaining := load_remaining req fresh table
      omega
  | free sid =>
      have boundedAfter := free_bounded bounded fired
      have rest := allocated_nonneg boundedAfter
      obtain ⟨seg, member, total, kept, remaining⟩ := free_allocated fired
      omega

/-- For loads of non-negative size in any order with frees: the remaining bytes
are never negative and never below the unallocated ones, exactly these as long as
every load fitted, and the maximum whenever the table is empty. -/
theorem remaining_accounts_for_segments {past : List (SegmentTable × MemoryEvent)}
    (trace : Trace memorySystem past table) (sized : ∀ entry ∈ past, Sized entry.2) :
    0 ≤ table.remaining ∧
      maxMemSize - allocated table ≤ table.remaining ∧
      ((∀ entry ∈ past, Fits entry.1 entry.2) →
        table.remaining = maxMemSize - allocated table) ∧
      (table.segList = [] → table.remaining = maxMemSize) := by
  have bounded : Bounded table :=
    trace_invariant (fun _ event => Sized event) Bounded trace sized bounded_init
      fun before event after _ bounded sized fired => step_bounded bounded sized fired
  refine ⟨bounded.nonneg, bounded.lower, ?_, ?_⟩
  · intro fits
    have both := trace_invariant (fun table event => Sized event ∧ Fits table event)
      (fun table => Bounded table ∧ table.remaining = maxMemSize - allocated table)
      trace (fun entry member => ⟨sized entry member, fits entry member⟩)
      ⟨bounded_init, by decide⟩
      fun before event after _ holds allowed fired =>
        ⟨step_bounded holds.1 allowed.1 fired, step_exact holds.1 holds.2 allowed.2 fired⟩
    exact both.2
  · intro empty
    have lower := bounded.lower
    have upper := bounded.emptied empty
    have nothing : allocated table = 0 := by simp [allocated, empty]
    omega

/-- Two gigabytes do not fit: the load overcommits, and the free restores the maximum. -/
def overcommitEvents : List MemoryEvent :=
  [.load
      { proc := { ProcessRecords.Process.blank with segSize := 2 * 1024 * 1024 }
        code := []
        counted := rfl }
      fun _ => ⟨fun _ => ⟨.exec, 0, none⟩, false⟩,
    .free 0]

theorem remaining_accounts_for_segments_sample :
    ((run memorySystem overcommitEvents segmentTableInit).getD segmentTableInit).remaining =
      maxMemSize := by
  have trace : Trace memorySystem (history memorySystem overcommitEvents segmentTableInit)
      ((run memorySystem overcommitEvents segmentTableInit).getD segmentTableInit) :=
    trace_history overcommitEvents (Trace.start : Trace memorySystem [] _) rfl
  refine (remaining_accounts_for_segments trace fun entry member => ?_).2.2.2 rfl
  have fired := history_event member
  simp only [overcommitEvents, List.mem_cons, List.not_mem_nil, or_false] at fired
  rcases fired with fired | fired <;> simp [fired, Sized]

end Ribabari.RemainingMemory
