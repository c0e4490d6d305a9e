import Ribabari.Kernel.Completion
import Ribabari.Memory.ByteSizes

/-!
# Nothing is left behind

When the last process has finished, the kernel holds nothing of any process: the queues,
the semaphores' waiters, the request list, the file table and the segment list are empty,
all memory remains, and each semaphore has back what the programs gave back. This does not
depend on the order of the events, on which processes shared a segment or a file, or on
what the memory accounting did while loads did not fit. Sizes below a gigabyte keep that
accounting within an `int`.
-/

namespace Ribabari.Quiescence

open Filter
open Ribabari.ProcessRecords Ribabari.SegmentMemory Ribabari.SemaphoreTable
open Ribabari.KernelState Ribabari.KernelEvents Ribabari.CpuLoop Ribabari.ProgramLedger
open Ribabari.CodeMemory Ribabari.SemaphoreAccounts Ribabari.DeadlockFreedom
open Ribabari.CountingSemaphore Ribabari.ReferenceCount Ribabari.OpenFiles
open Ribabari.QueueBoard Ribabari.QueueRefinement Ribabari.BoardInvariants Ribabari.Placement
open Ribabari.InstructionFetch Ribabari.CpuGuarantees Ribabari.RemainingMemory
open Ribabari.ByteSizes Ribabari.Completion Ribabari.FairRuns Ribabari.TransitionSystem

set_option autoImplicit false

variable {kernel after : Kernel}

/-! ## Memory -/

/-- A program that is loaded asks for less than a gigabyte, which fits or has a swap pass
that cannot report more than the memory. -/
def SizedLoad (kernel : Kernel) : KernelEvent → Prop
  | .processCreate program _ => 0 ≤ program.segSize ∧ program.segSize < 2 ^ 20 ∧
      (program.segSize * kilobyte ≤ kernel.segTable.remaining ∨
        SwapWithinMemory kernel.segTable (program.segSize * kilobyte))
  | .idleDispatch _ | .execute _ | .quantumCompleted | .processFinish | .diskTick => True

instance (kernel : Kernel) : DecidablePred (SizedLoad kernel)
  | .processCreate program _ => inferInstanceAs (Decidable (0 ≤ program.segSize ∧
      program.segSize < 2 ^ 20 ∧ (program.segSize * kilobyte ≤ kernel.segTable.remaining ∨
        SwapWithinMemory kernel.segTable (program.segSize * kilobyte))))
  | .idleDispatch _ | .execute _ | .quantumCompleted | .processFinish | .diskTick =>
      inferInstanceAs (Decidable True)

theorem new_process_counted (program : Program) :
    program.code.length = (newProcess program).codeLen := rfl

/-- What `process_create` asks the memory for. -/
def loadRequest (program : Program) : MemoryRequest where
  proc := newProcess program
  code := program.code
  counted := new_process_counted program

/-- The load or the free of the event computes the same in 32-bit integers. -/
def ExactMemory (kernel : Kernel) : KernelEvent → Prop
  | .processCreate program fresh =>
      memReqLoad32 (loadRequest program) fresh kernel.segTable =
        memReqLoad (loadRequest program) fresh kernel.segTable
  | .processFinish => ∀ proc, kernel.scheduler.scheduledProc = some proc →
      segmentFree32 kernel.segTable (kernel.procs proc).segId =
        segmentFree kernel.segTable (kernel.procs proc).segId
  | .idleDispatch _ | .execute _ | .quantumCompleted | .diskTick => True

/-- The account of the memory in a table whose segments are all below a gigabyte. -/
structure HeldInBytes (table : SegmentTable) : Prop where
  bounded : Bounded table
  inMemory : InMemory table
  small : ∀ seg ∈ table.segList, seg.size < 2 ^ 30

instance (state : Kernel × Ledger) (event : KernelEvent) : Decidable (FinishesAtEnd state event) :=
  match event with
  | .processFinish => inferInstanceAs (Decidable (∀ proc ∈ state.1.scheduler.scheduledProc,
      (state.1.procs proc).codeLen ≤ (state.1.procs proc).pc))
  | .processCreate _ _ | .idleDispatch _ | .execute _ | .quantumCompleted | .diskTick =>
      inferInstanceAs (Decidable True)

theorem mark_sizes (table : SegmentTable) (sid : Int) (pc : Nat) :
    (markUsed table sid pc).segList.map Segment.size = table.segList.map Segment.size := by
  unfold markUsed
  apply FirstMatch.map_update_first
  intro seg _
  rfl

/-- The used bit has no part in the accounts. -/
theorem mark_bounded {table : SegmentTable} (bounded : Bounded table) (sid : Int) (pc : Nat) :
    Bounded (markUsed table sid pc) := by
  have sizes := mark_sizes table sid pc
  have total : allocated (markUsed table sid pc) = allocated table := congrArg List.sum sizes
  refine
    { sizes := ?_
      nonneg := bounded.nonneg
      lower := by rw [total]; exact bounded.lower
      emptied := ?_ }
  · intro seg member
    obtain ⟨old, oldMember, same⟩ := List.mem_map.mp (sizes ▸ List.mem_map_of_mem member)
    exact same ▸ bounded.sizes old oldMember
  · intro empty
    apply bounded.emptied
    rw [empty, List.map_nil] at sizes
    exact List.map_eq_nil_iff.mp sizes.symm

theorem mark_held {table : SegmentTable} (held : HeldInBytes table) (sid : Int) (pc : Nat) :
    HeldInBytes (markUsed table sid pc) where
  bounded := mark_bounded held.bounded sid pc
  inMemory := held.inMemory
  small := by
    intro seg member
    obtain ⟨old, oldMember, same⟩ :=
      List.mem_map.mp (mark_sizes table sid pc ▸ List.mem_map_of_mem member)
    exact same ▸ held.small old oldMember

section Bytes

variable {table freed : SegmentTable}

theorem sized_in_bytes (held : HeldInBytes kernel.segTable) {program : Program}
    {fresh : Nat → Page} (sized : SizedLoad kernel (.processCreate program fresh)) :
    InBytes kernel.segTable
      (.load { proc := newProcess program, code := program.code, counted := rfl } fresh) := by
  obtain ⟨positive, small, fits⟩ := sized
  have upper := held.inMemory.2
  have nonneg : 0 ≤ program.segSize * kilobyte := Int.mul_nonneg positive (by decide)
  refine ⟨?_, ?_, fits⟩
  · change program.segSize < 2 ^ 21
    omega
  · change kernel.segTable.remaining - maxMemSize ≤ program.segSize * kilobyte
    omega

theorem free_in_bytes (held : HeldInBytes table) (sid : Int) : InBytes table (.free sid) := by
  intro seg found
  have member := List.mem_of_find?_eq_some found
  have positive := held.bounded.sizes seg member
  have small := held.small seg member
  have ⟨nonneg, upper⟩ := held.inMemory
  unfold maxMemSize at upper
  constructor <;> omega

theorem load_held (held : HeldInBytes table) {req : MemoryRequest} {fresh : Nat → Page}
    (inBytes : InBytes table (.load req fresh)) (positive : 0 ≤ req.proc.segSize)
    (small : req.proc.segSize < 2 ^ 20) : HeldInBytes (memReqLoad req fresh table) where
  bounded := load_bounded held.bounded fresh positive
  inMemory := load_in_memory fresh held.inMemory inBytes
  small := by
    intro seg member
    have listed := load_sizes req fresh table ▸ List.mem_map_of_mem (f := Segment.size) member
    rcases List.mem_append.mp listed with earlier | last
    · obtain ⟨old, oldMember, same⟩ := List.mem_map.mp earlier
      exact same ▸ held.small old oldMember
    · rw [List.mem_singleton.mp last]
      unfold kilobyte
      omega

theorem free_held (held : HeldInBytes table) {sid : Int}
    (released : segmentFree table sid = some freed) : HeldInBytes freed where
  bounded := free_bounded held.bounded released
  inMemory := free_in_memory (free_in_bytes held sid) released
  small := by
    obtain ⟨seg, -, -, kept, -⟩ := free_allocated released
    exact fun other left => held.small other (kept.subset left)

end Bytes

theorem step_memory {event : KernelEvent} (held : HeldInBytes kernel.segTable)
    (sized : SizedLoad kernel event) (fired : kernelStep kernel event = some after) :
    HeldInBytes after.segTable := by
  cases event with
  | processCreate program fresh =>
      obtain rfl := Option.some.inj fired
      rw [(create_code kernel program fresh).segments]
      exact load_held held (sized_in_bytes held sized) sized.1 sized.2.1
  | execute instr =>
      obtain ⟨proc, -, code⟩ := execute_code fired
      rw [code.segments]
      exact mark_held held _ _
  | processFinish =>
      obtain ⟨proc, running, finished⟩ := finish_fires fired
      exact free_held held (finish_code running finished).segments
  | idleDispatch | quantumCompleted | diskTick =>
      rw [(spared_code fired rfl).segments]
      exact held

/-- Where the table is held in bytes, the event's arithmetic is that of the source. -/
theorem memory_exact {event : KernelEvent} (held : HeldInBytes kernel.segTable)
    (sized : SizedLoad kernel event) : ExactMemory kernel event := by
  cases event with
  | processCreate program fresh =>
      exact load32_exact fresh held.inMemory (sized_in_bytes held sized)
  | processFinish => exact fun proc _ => free32_exact (free_in_bytes held _)
  | idleDispatch | execute | quantumCompleted | diskTick => trivial

theorem held_init : HeldInBytes kernelInit.segTable where
  bounded := bounded_init
  inMemory := by decide
  small := fun _ member => absurd member List.not_mem_nil

/-! ## Everything else -/

/-- The kernel has no process and nothing of one. -/
structure LeftClean (kernel : Kernel) : Prop where
  scheduled : kernel.scheduler.scheduledProc = none
  high : kernel.scheduler.highQueue = []
  low : kernel.scheduler.lowQueue = []
  blocked : kernel.scheduler.blockedQueue = []
  waiters : ∀ sem ∈ kernel.semTable, sem.waiters = []
  requests : kernel.diskScheduler.pendingRequests = []
  files : kernel.fileTable = []
  segments : kernel.segTable.segList = []

theorem reachable_clean (reached : Reachable kernelSystem kernel)
    (empty : kernel.procTable = []) : LeftClean kernel := by
  have accounted := kernel_accounted reached
  have places : Queues.places kernel.scheduler = [] := by
    apply List.Perm.eq_nil
    rw [← empty]
    exact accounted.placed
  simp only [Queues.places, List.append_eq_nil_iff] at places
  obtain ⟨⟨⟨scheduled, high⟩, low⟩, blocked⟩ := places
  have waiting : waiting (boardOf kernel) = [] := by
    apply List.Perm.eq_nil
    rw [← blocked]
    exact accounted.blocked.symm
  obtain ⟨asleep, pending⟩ := List.append_eq_nil_iff.mp waiting
  refine
    { scheduled := by simpa using scheduled
      high := high
      low := low
      blocked := blocked
      waiters := List.flatMap_eq_nil_iff.mp asleep
      requests := List.map_eq_nil_iff.mp pending
      files := ?_
      segments := ?_ }
  · apply List.eq_nil_iff_forall_not_mem.mpr
    intro inode member
    have held := (reachable_counted reached).table.held inode member
    simp [openers, empty] at held
  · have ids := reachable_ids reached
    rw [segIds, empty, List.map_nil] at ids
    exact List.map_eq_nil_iff.mp ids.eq_nil

section Runs

variable {past : List ((Kernel × Ledger) × KernelEvent)} {state : Kernel × Ledger}

/-- In an empty system, a semaphore's value is its one permit less what the programs
took and kept. -/
theorem empty_values (trace : Trace recordedSystem past state)
    (inRange : ∀ entry ∈ past, FetchInRange entry.1 entry.2)
    (atEnd : ∀ entry ∈ past, FinishesAtEnd entry.1 entry.2) (empty : state.1.procTable = [])
    {sem : Semaphore} (member : sem ∈ state.1.semTable) :
    sem.S = 1 - ∑ proc ∈ Finset.range state.1.nextProcId,
      balance sem.name (state.2.loaded proc) := by
  have accounts := reachable_balanced ⟨past, trace⟩
  have found := FirstMatch.find_key accounts.names member
  have whole := finished_whole trace inRange atEnd
  rw [(accounts.balanced found).value_eq]
  congr 1
  apply Finset.sum_congr rfl
  intro proc numbered
  rw [whole proc (Finset.mem_range.mp numbered) (empty ▸ List.not_mem_nil)]

theorem visited_held (trace : Trace recordedSystem past state)
    (sized : ∀ entry ∈ past, SizedLoad entry.1.1 entry.2) :
    ∀ seen ∈ visited past state, HeldInBytes seen.1.segTable :=
  trace_visited_invariant (fun (state : Kernel × Ledger) event => SizedLoad state.1 event)
    (fun state => HeldInBytes state.1.segTable) trace sized held_init
    fun _ _ _ _ held sized fired => step_memory held sized (history_step fired).1

theorem emptied_memory (trace : Trace recordedSystem past state)
    (sized : ∀ entry ∈ past, SizedLoad entry.1.1 entry.2) (clean : LeftClean state.1) :
    state.1.segTable.remaining = maxMemSize := by
  have bounded := (visited_held trace sized state (last_visited _ _)).bounded
  have lower := bounded.lower
  have upper := bounded.emptied clean.segments
  have none : allocated state.1.segTable = 0 := by
    rw [allocated, clean.segments]
    rfl
  omega

/-- When nobody is alive, the queues, waiters, requests, files and segments are gone, all
memory remains, and a semaphore has its permit less what the programs took and kept. No load
or free on the way differs from the one in 32-bit integers. -/
theorem nothing_left_behind (trace : Trace recordedSystem past state)
    (sized : ∀ entry ∈ past, SizedLoad entry.1.1 entry.2)
    (inRange : ∀ entry ∈ past, FetchInRange entry.1 entry.2)
    (atEnd : ∀ entry ∈ past, FinishesAtEnd entry.1 entry.2) (empty : state.1.procTable = []) :
    (LeftClean state.1 ∧ state.1.segTable.remaining = maxMemSize ∧
      ∀ sem ∈ state.1.semTable, sem.S =
        1 - ∑ proc ∈ Finset.range state.1.nextProcId,
          balance sem.name (state.2.loaded proc)) ∧
      ∀ entry ∈ past, ExactMemory entry.1.1 entry.2 := by
  have clean := reachable_clean (history_reachable ⟨past, trace⟩) empty
  refine ⟨⟨clean, emptied_memory trace sized clean, fun sem member =>
    empty_values trace inRange atEnd empty member⟩, ?_⟩
  intro entry member
  exact memory_exact (visited_held trace sized entry.1 (mem_visited member _))
    (sized entry member)

end Runs

/-- A program that takes a semaphore and gives it back twice. -/
def generousProgram : Program :=
  { sampleProgram with
    code := [⟨.semP, 0, some ['s']⟩, ⟨.semV, 0, some ['s']⟩, ⟨.semV, 0, some ['s']⟩] }

def generousEvents : List KernelEvent :=
  [.processCreate generousProgram blankPage, .idleDispatch true,
    .execute ⟨.semP, 0, some ['s']⟩, .execute ⟨.semV, 0, some ['s']⟩,
    .execute ⟨.semV, 0, some ['s']⟩, .processFinish]

def generousRecord : Kernel × Ledger :=
  (run recordedSystem generousEvents recordedSystem.start).getD recordedSystem.start

theorem nothing_left_behind_sample :
    LeftClean generousRecord.1 ∧ generousRecord.1.segTable.remaining = maxMemSize ∧
      ∀ sem ∈ generousRecord.1.semTable, sem.S = 2 := by
  have trace : Trace recordedSystem
      (history recordedSystem generousEvents recordedSystem.start) generousRecord :=
    trace_history _ .start (show run recordedSystem generousEvents recordedSystem.start =
      some generousRecord from rfl)
  obtain ⟨⟨clean, memory, values⟩, -⟩ :=
    nothing_left_behind trace (by decide) (by decide) (by decide) rfl
  refine ⟨clean, memory, fun sem member => (values sem member).trans ?_⟩
  obtain rfl : sem = ⟨['s'], 2, []⟩ := List.mem_singleton.mp member
  decide

/-- A fair run of ordered programs ends with everything given back: nothing of a process
is left, all memory remains and every semaphore is free. No load or free of the run differs
from the one in 32-bit integers. -/
theorem fair_run_gives_back (before : CString → CString → Prop) [IsStrictOrder CString before]
    (run : InfiniteRun recordedCpu) (fair : FairRun before run)
    (sized : ∀ time program fresh, run.events time = .processCreate program fresh →
      SizedLoad (run.states time).1.kernel (.processCreate program fresh)) :
    (∀ time action, cpuAction (run.states time).1 (run.events time) = some action →
        ExactMemory (run.states time).1.kernel action) ∧
      ∀ᶠ time in atTop, LeftClean (run.states time).1.kernel ∧
        (run.states time).1.kernel.segTable.remaining = maxMemSize ∧
        ∀ sem ∈ (run.states time).1.kernel.semTable, sem.S = 1 := by
  have acts : ∀ time action, cpuAction (run.states time).1 (run.events time) = some action →
      SizedLoad (run.states time).1.kernel action := by
    intro time action acts
    cases action with
    | processCreate program fresh => exact sized time program fresh (create_action acts)
    | idleDispatch | execute | quantumCompleted | processFinish | diskTick => trivial
  have loads : ∀ time, ∀ entry ∈ cpuRefinesKernel.project (run.past time),
      SizedLoad entry.1.1 entry.2 := by
    intro time
    apply cpuRefinesKernel.project_allowed
      fun (state : Kernel × Ledger) event => SizedLoad state.1 event
    intro source member action image
    obtain ⟨earlier, -, rfl⟩ := List.mem_map.mp member
    exact acts earlier action image
  constructor
  · intro time action image
    have trace := cpuRefinesKernel.trace (run.trace time)
    exact memory_exact (visited_held trace (loads time) _ (last_visited _ _))
      (acts time action image)
  · apply (everybody_leaves fair).mono
    intro time empty
    have trace := cpuRefinesKernel.trace (run.trace time)
    have clean := reachable_clean (history_reachable ⟨_, trace⟩) empty
    refine ⟨clean, emptied_memory trace (loads time) clean, fun sem member => ?_⟩
    have programs := visited_loaded_ok (Ordered before) (empty_ordered before) (run.trace time)
      (past_ordered fair time) (run.states time) (last_visited _ _)
    have returned : ∑ proc ∈ Finset.range (run.states time).1.kernel.nextProcId,
        balance sem.name ((run.states time).2.loaded proc) = 0 :=
      Finset.sum_eq_zero fun proc _ => (programs proc).returns sem.name
    have value := empty_values trace (past_in_range fair time)
      (projected_finishes_at_end (run.past time)) empty member
    change sem.S = 1 - ∑ proc ∈ Finset.range (run.states time).1.kernel.nextProcId,
      balance sem.name ((run.states time).2.loaded proc) at value
    rw [value, returned, sub_zero]

theorem fair_run_gives_back_sample :
    ∀ᶠ time in atTop, LeftClean (completingRun.states time).1.kernel ∧
      (completingRun.states time).1.kernel.segTable.remaining = maxMemSize ∧
      ∀ sem ∈ (completingRun.states time).1.kernel.semTable, sem.S = 1 := by
  refine (fair_run_gives_back (· < ·) completingRun completing_fair ?_).2
  intro time program fresh event
  obtain ⟨rfl, rfl⟩ := completing_loads event
  exact ⟨by decide, by decide, .inl (by decide)⟩

end Ribabari.Quiescence
