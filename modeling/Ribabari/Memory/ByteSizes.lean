import Ribabari.Foundation.CLibrary
import Ribabari.Memory.RemainingMemory

/-!
# Byte sizes in 32-bit integers

`memory.c` once more, with every sum and product kept in an `int`. A load floors the
remaining bytes and a free caps them, each on one side only, so sizes that are negative
or do not fit and swap passes that report too much take them out of their range. While no
step does so, these steps are those over exact integers.
-/

namespace Ribabari.ByteSizes

open Ribabari.FirstMatch Ribabari.CLibrary Ribabari.ProcessRecords Ribabari.SegmentMemory
open Ribabari.RemainingMemory Ribabari.TransitionSystem

set_option autoImplicit false

/-! ## The arithmetic of the source -/

theorem pages_allocated (req : MemoryRequest) (fresh : Nat → Page) :
    ((List.range ((req.proc.codeLen + 255) / instructionsPerPage)).map fresh).length =
      (req.proc.codeLen + 255) / instructionsPerPage := by
  rw [List.length_map, List.length_range]

def segmentCreate32 (req : MemoryRequest) (fresh : Nat → Page) : Segment where
  id := req.proc.segId
  size := int32 (req.proc.segSize * kilobyte)
  pageTable := (List.range ((req.proc.codeLen + 255) / instructionsPerPage)).map fresh
  pageCount := (req.proc.codeLen + 255) / instructionsPerPage
  pageQtd := (int32 (req.proc.segSize * kilobyte)).tdiv pageSize
  allocated := pages_allocated req fresh

def swapPages32 (size : Int) : List Page → Int → List Page × Int
  | [], freed => ([], freed)
  | page :: rest, freed =>
      let page' := if page.used then page.clearUsed else page
      let freed' := if page.used then freed else int32 (freed + pageSize)
      if freed' ≥ size then (page' :: rest, freed')
      else
        let tail := swapPages32 size rest freed'
        (page' :: tail.1, tail.2)

theorem swap_pages32_length (size : Int) (pages : List Page) (freed : Int) :
    (swapPages32 size pages freed).1.length = pages.length := by
  induction pages generalizing freed with
  | nil => rfl
  | cons page rest ih =>
      simp only [swapPages32]
      split_ifs <;> simp [ih]

def swapSegment32 (size : Int) (seg : Segment) (freed : Int) : Segment × Int :=
  (seg.withPages (swapPages32 size seg.pageTable freed).1 (swap_pages32_length _ _ _),
    (swapPages32 size seg.pageTable freed).2)

def memoryPageSwap32 (size : Int) : List Segment → Int → List Segment × Int
  | [], freed => ([], freed)
  | seg :: rest, freed =>
      let swapped := swapSegment32 size seg freed
      let tail := memoryPageSwap32 size rest swapped.2
      (swapped.1 :: tail.1, tail.2)

def segmentFree32 (table : SegmentTable) (sid : Int) : Option SegmentTable :=
  match segmentFind table sid with
  | none => none
  | some seg => some
      { table with
        segList := table.segList.eraseP fun other => other.id == sid
        remaining := min maxMemSize (int32 (table.remaining + seg.size)) }

def memReqLoad32 (req : MemoryRequest) (fresh : Nat → Page) (table : SegmentTable) :
    SegmentTable :=
  let seg := segmentCreate32 req fresh
  let newRemaining := int32 (table.remaining - seg.size)
  let charged := { table with remaining := max 0 newRemaining }
  let table' :=
    if newRemaining < 0 then
      let swapped := memoryPageSwap32 seg.size charged.segList 0
      { charged with
        segList := swapped.1
        remaining := int32 (charged.remaining + swapped.2) }
    else charged
  segmentAdd table' (segmentPopulate seg req.code)

def memoryStep32 (table : SegmentTable) : MemoryEvent → Option SegmentTable
  | .load req fresh => some (memReqLoad32 req fresh table)
  | .free sid => segmentFree32 table sid

def memorySystem32 : System SegmentTable MemoryEvent where
  start := segmentTableInit
  step := memoryStep32

/-! ## The conditions -/

def unused (seg : Segment) : Nat := seg.pageTable.countP fun page => !page.used

def unusedPages (table : SegmentTable) : Nat := (table.segList.map unused).sum

/-- The swap pass for a size counts unused pages only, and after it has counted enough
it counts one page of each segment at most. -/
def SwapWithinMemory (table : SegmentTable) (size : Int) : Prop :=
  unusedPages table * pageSize ≤ maxMemSize ∨
    size + table.segList.length * pageSize ≤ maxMemSize

instance (table : SegmentTable) (size : Int) : Decidable (SwapWithinMemory table size) :=
  inferInstanceAs (Decidable (_ ∨ _))

/-- A load asks for less than two gigabytes, gives back no more than is missing, and fits
or has a swap pass that cannot report more than the memory. A free gives back a size that
leaves the sum in range. -/
def InBytes (table : SegmentTable) : MemoryEvent → Prop
  | .load req _ =>
      req.proc.segSize < 2 ^ 21 ∧ table.remaining - maxMemSize ≤ req.proc.segSize * kilobyte ∧
        (req.proc.segSize * kilobyte ≤ table.remaining ∨
          SwapWithinMemory table (req.proc.segSize * kilobyte))
  | .free sid => ∀ seg ∈ segmentFind table sid,
      -table.remaining ≤ seg.size ∧ table.remaining + seg.size < 2 ^ 31

instance (table : SegmentTable) : DecidablePred (InBytes table)
  | .load _ _ => inferInstanceAs (Decidable (_ ∧ _ ∧ (_ ∨ _)))
  | .free sid => inferInstanceAs (Decidable (∀ seg ∈ segmentFind table sid, _ ∧ _))

def InMemory (table : SegmentTable) : Prop := 0 ≤ table.remaining ∧ table.remaining ≤ maxMemSize

/-- The byte size of a load is an `int`. -/
def ByteSizeFits : MemoryEvent → Prop
  | .load req _ => IsInt32 (req.proc.segSize * kilobyte)
  | .free _ => True

instance (table : SegmentTable) : Decidable (InMemory table) :=
  inferInstanceAs (Decidable (_ ∧ _))

/-! ## The swap pass -/

section Swap

variable (size : Int)

/-- Since the count only grows, it is exact when its end is an `int`. -/
theorem swap_pages32_exact (pages : List Page) {freed : Int} (start : 0 ≤ freed)
    (ends : (swapPages size pages freed).2 < 2 ^ 31) :
    swapPages32 size pages freed = swapPages size pages freed := by
  induction pages generalizing freed with
  | nil => rfl
  | cons page rest ih =>
      have grown := start.trans (page_grows page freed)
      rw [swapPages] at ends ⊢
      rw [swapPages32]
      dsimp only at ends ⊢
      have exact32 : (if page.used then freed else freed + pageSize) < 2 ^ 31 →
          (if page.used then freed else int32 (freed + pageSize)) =
            if page.used then freed else freed + pageSize := by
        intro bounded
        by_cases used : page.used
        · rw [if_pos used, if_pos used]
        · rw [if_neg used] at grown bounded
          rw [if_neg used, if_neg used]
          exact int32_of_range ⟨by omega, bounded⟩
      by_cases enough : (if page.used then freed else freed + pageSize) ≥ size
      · rw [if_pos enough] at ends ⊢
        rw [exact32 ends, if_pos enough]
      · rw [if_neg enough] at ends ⊢
        rw [exact32 ((swap_pages_grows size rest _).trans_lt ends), if_neg enough, ih grown ends]

theorem swap32_exact (segs : List Segment) {freed : Int} (start : 0 ≤ freed)
    (ends : (memoryPageSwap size segs freed).2 < 2 ^ 31) :
    memoryPageSwap32 size segs freed = memoryPageSwap size segs freed := by
  induction segs generalizing freed with
  | nil => rfl
  | cons seg rest ih =>
      have later := swap_grows size rest (swapPages size seg.pageTable freed).2
      have pages := swap_pages32_exact size seg.pageTable start (later.trans_lt ends)
      have first : swapSegment32 size seg freed = swapSegment size seg freed := by
        simp only [swapSegment32, swapSegment, pages]
      have others := ih (start.trans (swap_pages_grows size seg.pageTable freed)) ends
      simp only [memoryPageSwap32, memoryPageSwap, first]
      rw [show (swapSegment size seg freed).2 = (swapPages size seg.pageTable freed).2 from rfl,
        others]

theorem page_size : pageSize = 4096 := rfl

theorem swap_pages_unused (pages : List Page) (freed : Int) :
    (swapPages size pages freed).2 ≤
      freed + (pages.countP fun page => !page.used : Nat) * pageSize := by
  induction pages generalizing freed with
  | nil => simp [swapPages]
  | cons page rest ih =>
      have later := ih (if page.used then freed else freed + pageSize)
      have counted : 0 ≤ ((rest.countP fun page => !page.used : Nat) : Int) :=
        Int.natCast_nonneg _
      rw [swapPages, List.countP_cons]
      dsimp only
      rw [page_size] at later ⊢
      cases used : page.used
      · simp only [used, Bool.false_eq_true, if_false, Bool.not_false, if_true] at later ⊢
        push_cast
        split <;> omega
      · simp only [used, if_true, Bool.not_true, Bool.false_eq_true, if_false] at later ⊢
        push_cast
        split <;> omega

theorem swap_unused (segs : List Segment) (freed : Int) :
    (memoryPageSwap size segs freed).2 ≤ freed + ((segs.map unused).sum : Nat) * pageSize := by
  induction segs generalizing freed with
  | nil => simp [memoryPageSwap]
  | cons seg rest ih =>
      have first := swap_pages_unused size seg.pageTable freed
      have others := ih (swapPages size seg.pageTable freed).2
      change (memoryPageSwap size rest (swapPages size seg.pageTable freed).2).2 ≤ _
      rw [List.map_cons, List.sum_cons, unused, Int.natCast_add]
      rw [page_size] at first others ⊢
      omega

theorem swap_pages_overshoot (pages : List Page) (freed : Int) :
    (swapPages size pages freed).2 ≤ max freed size + pageSize := by
  induction pages generalizing freed with
  | nil =>
      rw [page_size, swapPages]
      omega
  | cons page rest ih =>
      have later := ih (if page.used then freed else freed + pageSize)
      rw [swapPages]
      dsimp only
      rw [page_size] at later ⊢
      cases used : page.used
      · simp only [used, Bool.false_eq_true, if_false] at later ⊢
        split <;> omega
      · simp only [used, if_true] at later ⊢
        split <;> omega

theorem swap_overshoot (segs : List Segment) (freed : Int) :
    (memoryPageSwap size segs freed).2 ≤ max freed size + segs.length * pageSize := by
  induction segs generalizing freed with
  | nil => simp [memoryPageSwap]
  | cons seg rest ih =>
      have first := swap_pages_overshoot size seg.pageTable freed
      have others := ih (swapPages size seg.pageTable freed).2
      change (memoryPageSwap size rest (swapPages size seg.pageTable freed).2).2 ≤ _
      rw [List.length_cons]
      push_cast
      rw [page_size] at first others ⊢
      omega

variable {size}

theorem swap_within_memory {table : SegmentTable} (positive : 0 ≤ size)
    (within : SwapWithinMemory table size) :
    0 ≤ (memoryPageSwap size table.segList 0).2 ∧
      (memoryPageSwap size table.segList 0).2 ≤ maxMemSize := by
  refine ⟨swap_grows size table.segList 0, ?_⟩
  rcases within with few | short
  · have counted := swap_unused size table.segList 0
    unfold unusedPages at few
    omega
  · have counted := swap_overshoot size table.segList 0
    rw [Int.max_eq_right positive] at counted
    omega

end Swap

/-! ## Steps and runs -/

section Steps

variable {table after : SegmentTable}

theorem load_size_int32 {req : MemoryRequest} {fresh : Nat → Page} (inMemory : InMemory table)
    (inBytes : InBytes table (.load req fresh)) : IsInt32 (req.proc.segSize * kilobyte) := by
  obtain ⟨large, small, -⟩ := inBytes
  unfold InMemory maxMemSize at inMemory
  unfold maxMemSize kilobyte at small
  unfold IsInt32 kilobyte
  omega

/-- A load that does not fit swaps within the memory. -/
theorem short_swap {req : MemoryRequest} (fresh : Nat → Page) (inMemory : InMemory table)
    (inBytes : InBytes table (.load req fresh))
    (short : table.remaining - (segmentCreate req fresh).size < 0) :
    0 ≤ (memoryPageSwap (segmentCreate req fresh).size table.segList 0).2 ∧
      (memoryPageSwap (segmentCreate req fresh).size table.segList 0).2 ≤ maxMemSize := by
  obtain ⟨-, -, fits⟩ := inBytes
  have size : (segmentCreate req fresh).size = req.proc.segSize * kilobyte := rfl
  have nonneg := inMemory.1
  rcases fits with enough | within
  · omega
  · exact swap_within_memory (by omega) within

/-- What remains after a load over exact integers. -/
theorem load_in_memory {req : MemoryRequest} (fresh : Nat → Page) (inMemory : InMemory table)
    (inBytes : InBytes table (.load req fresh)) : InMemory (memReqLoad req fresh table) := by
  have swap := short_swap fresh inMemory inBytes
  obtain ⟨-, small, -⟩ := inBytes
  have size : (segmentCreate req fresh).size = req.proc.segSize * kilobyte := rfl
  unfold InMemory at inMemory ⊢
  by_cases short : table.remaining - (segmentCreate req fresh).size < 0
  · have swapped := swap short
    simp only [memReqLoad, segmentAdd, if_pos short]
    omega
  · simp only [memReqLoad, segmentAdd, if_neg short]
    omega

/-- A load that keeps to the conditions is the load over exact integers. -/
theorem load32_exact {req : MemoryRequest} (fresh : Nat → Page) (inMemory : InMemory table)
    (inBytes : InBytes table (.load req fresh)) :
    memReqLoad32 req fresh table = memReqLoad req fresh table := by
  have fitsInt := load_size_int32 inMemory inBytes
  have bytes := int32_of_range fitsInt
  have swap := short_swap fresh inMemory inBytes
  obtain ⟨-, small, -⟩ := inBytes
  have created : segmentCreate32 req fresh = segmentCreate req fresh := by
    simp only [segmentCreate32, segmentCreate, bytes]
  have size : (segmentCreate req fresh).size = req.proc.segSize * kilobyte := rfl
  unfold InMemory at inMemory
  unfold maxMemSize at inMemory small
  unfold IsInt32 at fitsInt
  have difference : int32 (table.remaining - (segmentCreate req fresh).size) =
      table.remaining - (segmentCreate req fresh).size :=
    int32_of_range ⟨by omega, by omega⟩
  unfold memReqLoad32 memReqLoad
  simp only [created, difference]
  by_cases short : table.remaining - (segmentCreate req fresh).size < 0
  · have swapped := swap short
    unfold maxMemSize at swapped
    have exactSwap := swap32_exact (segmentCreate req fresh).size table.segList (Int.le_refl 0)
      (by omega)
    have floored : max 0 (table.remaining - (segmentCreate req fresh).size) = 0 :=
      Int.max_eq_left (by omega)
    have total : int32 (0 + (memoryPageSwap (segmentCreate req fresh).size table.segList 0).2) =
        0 + (memoryPageSwap (segmentCreate req fresh).size table.segList 0).2 :=
      int32_of_range ⟨by omega, by omega⟩
    simp only [if_pos short, exactSwap, floored, total]
  · simp only [if_neg short]

theorem free32_exact {sid : Int} (inBytes : InBytes table (.free sid)) :
    segmentFree32 table sid = segmentFree table sid := by
  unfold segmentFree32 segmentFree
  cases found : segmentFind table sid with
  | none => rfl
  | some seg =>
      obtain ⟨lower, upper⟩ := inBytes seg found
      have total : int32 (table.remaining + seg.size) = table.remaining + seg.size :=
        int32_of_range ⟨by omega, upper⟩
      simp only [total]

theorem free_in_memory {sid : Int} (inBytes : InBytes table (.free sid))
    (freed : segmentFree table sid = some after) : InMemory after := by
  obtain ⟨seg, found, rfl⟩ := free_inv freed
  obtain ⟨lower, -⟩ := inBytes seg found
  have positive : 0 ≤ maxMemSize := by decide
  unfold InMemory
  dsimp only
  omega

theorem step32_exact {event : MemoryEvent} (inMemory : InMemory table)
    (inBytes : InBytes table event) : memoryStep32 table event = memoryStep table event := by
  cases event with
  | load req fresh => exact congrArg some (load32_exact fresh inMemory inBytes)
  | free sid => exact free32_exact inBytes

theorem step_in_memory {event : MemoryEvent} (inMemory : InMemory table)
    (inBytes : InBytes table event) (fired : memoryStep32 table event = some after) :
    InMemory after := by
  rw [step32_exact inMemory inBytes] at fired
  cases event with
  | load req fresh =>
      obtain rfl := Option.some.inj fired
      exact load_in_memory fresh inMemory inBytes
  | free sid => exact free_in_memory inBytes fired

end Steps

theorem visited_in_memory {past : List (SegmentTable × MemoryEvent)} {table : SegmentTable}
    (trace : Trace memorySystem32 past table) (inBytes : ∀ entry ∈ past, InBytes entry.1 entry.2) :
    ∀ seen ∈ visited past table, InMemory seen :=
  trace_visited_invariant InBytes InMemory trace inBytes (by decide)
    fun _ _ _ _ inMemory inBytes fired => step_in_memory inMemory inBytes fired

/-- In every run of loads and frees that all keep to the conditions, the remaining bytes
are in range in every state, every byte size is an `int`, and no step differs from the one
over exact integers. -/
theorem bytes_stay_in_memory {past : List (SegmentTable × MemoryEvent)} {table : SegmentTable}
    (trace : Trace memorySystem32 past table) (inBytes : ∀ entry ∈ past, InBytes entry.1 entry.2) :
    (∀ seen ∈ visited past table, 0 ≤ seen.remaining ∧ seen.remaining ≤ maxMemSize) ∧
      (∀ entry ∈ past, ByteSizeFits entry.2) ∧ Trace memorySystem past table := by
  have inRange := visited_in_memory trace inBytes
  refine ⟨inRange, ?_, ?_⟩
  · intro entry member
    have here := inRange entry.1 (mem_visited member _)
    have bytes := inBytes entry member
    obtain ⟨before, event⟩ := entry
    cases event with
    | load req fresh => exact load_size_int32 here bytes
    | free sid => trivial
  · clear inRange
    induction trace with
    | start => exact .start
    | @next past before after event prior fired ih =>
        have earlier := fun entry member => inBytes entry (List.mem_append_left _ member)
        have here : InMemory before :=
          visited_in_memory prior earlier before (last_visited _ _)
        have step : memoryStep before event = some after :=
          (step32_exact here (inBytes (before, event) (by simp))).symm.trans fired
        exact (ih earlier).next step

theorem nothing_counted (segSize : Int) :
    ([] : List Instr).length = ({ Process.blank with segSize := segSize } : Process).codeLen :=
  rfl

def sizedLoad (segSize : Int) : MemoryEvent :=
  .load
    { proc := { Process.blank with segSize := segSize }
      code := []
      counted := nothing_counted segSize }
    fun _ => ⟨fun _ => ⟨.exec, 0, none⟩, false⟩

/-- A load of 24 kilobytes that is freed again. -/
def sizedEvents : List MemoryEvent := [sizedLoad 24, .free 0]

def sizedPast : List (SegmentTable × MemoryEvent) :=
  history memorySystem32 sizedEvents segmentTableInit

def sizedTable : SegmentTable :=
  (run memorySystem32 sizedEvents segmentTableInit).getD segmentTableInit

theorem bytes_stay_in_memory_sample :
    (∀ seen ∈ visited sizedPast sizedTable, 0 ≤ seen.remaining ∧ seen.remaining ≤ maxMemSize) ∧
      Trace memorySystem sizedPast sizedTable := by
  have trace : Trace memorySystem32 sizedPast sizedTable :=
    trace_history sizedEvents (Trace.start : Trace memorySystem32 [] _) rfl
  obtain ⟨inMemory, -, exact⟩ := bytes_stay_in_memory trace (by decide)
  exact ⟨inMemory, exact⟩

/-- The byte size of two gigabytes is no `int`, and a kilobyte less than nothing makes
more remain than there is. -/
theorem sizes_leave_memory :
    ¬ByteSizeFits (sizedLoad (2 ^ 21)) ∧
      (run memorySystem32 [sizedLoad (-1)] segmentTableInit).map SegmentTable.remaining =
        some (maxMemSize + 1024) := by
  refine ⟨?_, by decide⟩
  unfold sizedLoad ByteSizeFits
  decide

end Ribabari.ByteSizes
