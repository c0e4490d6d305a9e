import Mathlib.Data.List.Perm.Basic
import Ribabari.Abstract.QueueRefinement

/-!
# Start priorities

`interruptControl` puts a new process into the high queue when its priority is 1 and into
the low queue otherwise, and `schedule_process` prefers the high queue. The program format
calls 0 the highest priority, so the processes of both priorities are dispatched in the
opposite order.
-/

namespace Ribabari.StartPriority

open Ribabari.ProcessRecords Ribabari.SegmentMemory Ribabari.KernelState
open Ribabari.Dispatch Ribabari.KernelEvents Ribabari.QueueBoard Ribabari.QueueRefinement

set_option autoImplicit false

/-- A program and the storage its pages are allocated from. -/
abbrev Load := Program × (Nat → Page)

/-- One `process_create` after the other. -/
def createAll (kernel : Kernel) (loads : List Load) : Kernel :=
  loads.foldl (fun kernel load => processCreate kernel load.1 load.2) kernel

/-- The processes with the priority in creation order, the first of all loads drawing the
id `first`. -/
def createdWith (priority : Int) (first : ProcId) (loads : List Load) : List ProcId :=
  ((loads.zipIdx first).filter fun entry => entry.1.1.priority = priority).map Prod.snd

/-- The processes that one `schedule_process` after the other puts into the cpu. -/
def dispatched (kernel : Kernel) : List SchedulerFlag → List (Option ProcId)
  | [] => []
  | flag :: flags =>
      (scheduleProcess kernel flag).scheduler.scheduledProc ::
        dispatched (scheduleProcess kernel flag) flags

/-- All priorities are 0 or 1. -/
def Documented (loads : List Load) : Prop :=
  ∀ load ∈ loads, load.1.priority = 0 ∨ load.1.priority = 1

instance (loads : List Load) : Decidable (Documented loads) :=
  inferInstanceAs (Decidable (∀ load ∈ loads, _))

/-- The dispatches follow the priorities of the program format: 0 before 1, each in
creation order. -/
def DispatchedByPriority (kernel : Kernel) (loads : List Load) (flags : List SchedulerFlag) :
    Prop :=
  dispatched (createAll kernel loads) flags =
    (createdWith 0 kernel.nextProcId loads ++ createdWith 1 kernel.nextProcId loads).map some

section Order

variable {first : ProcId}

theorem created_with_cons (priority : Int) (load : Load) (loads : List Load) :
    createdWith priority first (load :: loads) =
      (if load.1.priority = priority then [first] else []) ++
        createdWith priority (first + 1) loads := by
  by_cases same : load.1.priority = priority <;>
    simp [createdWith, List.zipIdx_cons, same]

theorem created_with_later (priority : Int) (loads : List Load) :
    ∀ proc ∈ createdWith priority first loads, first ≤ proc := by
  intro proc member
  obtain ⟨entry, listed, rfl⟩ := List.mem_map.mp member
  exact List.le_snd_of_mem_zipIdx (List.mem_of_mem_filter listed)

theorem created_with_length (loads : List Load) (documented : Documented loads) :
    (createdWith 1 first loads ++ createdWith 0 first loads).length = loads.length := by
  induction loads generalizing first with
  | nil => rfl
  | cons load loads ih =>
      have rest : (createdWith 1 (first + 1) loads ++ createdWith 0 (first + 1) loads).length =
          loads.length := ih fun other member => documented other (List.mem_cons_of_mem _ member)
      rw [List.length_append] at rest ⊢
      rw [created_with_cons, created_with_cons, List.length_append, List.length_append,
        List.length_cons, ← rest]
      rcases documented load List.mem_cons_self with low | high
      · simp [low]
        omega
      · simp [high]
        omega

theorem created_with_disjoint {priority other : Int} {loads : List Load} {proc : ProcId}
    (member : proc ∈ createdWith priority first loads)
    (otherMember : proc ∈ createdWith other first loads) : priority = other := by
  induction loads generalizing first with
  | nil => simp [createdWith] at member
  | cons load loads ih =>
      have later : ∀ priority, proc ∈ createdWith priority (first + 1) loads → first + 1 ≤ proc :=
        fun priority => created_with_later priority loads proc
      rw [created_with_cons, List.mem_append] at member otherMember
      rcases member with here | there <;> rcases otherMember with otherHere | otherThere
      · split at here <;> split at otherHere <;> simp_all
      · split at here
        · have past := later other otherThere
          rw [List.mem_singleton.mp here] at past
          exact absurd past (Nat.not_succ_le_self first)
        · simp at here
      · split at otherHere
        · have past := later priority there
          rw [List.mem_singleton.mp otherHere] at past
          exact absurd past (Nat.not_succ_le_self first)
        · simp at otherHere
      · exact ih there otherThere

theorem created_with_nil_iff (priority : Int) (loads : List Load) :
    createdWith priority first loads = [] ↔ ∀ load ∈ loads, load.1.priority ≠ priority := by
  induction loads generalizing first with
  | nil => simp [createdWith]
  | cons load loads ih =>
      rw [created_with_cons, List.append_eq_nil_iff, ih, List.forall_mem_cons]
      simp

/-- One order is the other exactly when only one priority occurs. -/
theorem orders_agree_iff (loads : List Load) :
    createdWith 1 first loads ++ createdWith 0 first loads =
        createdWith 0 first loads ++ createdWith 1 first loads ↔
      createdWith 1 first loads = [] ∨ createdWith 0 first loads = [] := by
  constructor
  · intro same
    cases ones : createdWith 1 first loads with
    | nil => exact .inl rfl
    | cons proc _ =>
        cases zeros : createdWith 0 first loads with
        | nil => exact .inr rfl
        | cons other _ =>
            rw [ones, zeros] at same
            obtain rfl : proc = other := (List.cons.inj same).1
            have inOnes : proc ∈ createdWith 1 first loads := by simp [ones]
            have inZeros : proc ∈ createdWith 0 first loads := by simp [zeros]
            exact absurd (created_with_disjoint inOnes inZeros) (by decide)
  · rintro (none | none) <;> simp [none]

end Order

/-! ## Queues -/

/-- The loads fill the two ready queues in creation order. -/
theorem create_all_queues {kernel : Kernel} {loads : List Load} (documented : Documented loads) :
    (createAll kernel loads).scheduler =
      { kernel.scheduler with
        highQueue := kernel.scheduler.highQueue ++ createdWith 1 kernel.nextProcId loads
        lowQueue := kernel.scheduler.lowQueue ++ createdWith 0 kernel.nextProcId loads } := by
  induction loads generalizing kernel with
  | nil => simp [createAll, createdWith]
  | cons load loads ih =>
      have queues := create_queues kernel load.1 load.2
      have next : (processCreate kernel load.1 load.2).nextProcId = kernel.nextProcId + 1 :=
        congrArg Board.nextProcId (create_board kernel load.1 load.2)
      have others : Documented loads := fun other member =>
        documented other (List.mem_cons_of_mem _ member)
      rw [createAll, List.foldl_cons, ← createAll, ih others, queues, next, created_with_cons,
        created_with_cons]
      rcases documented load List.mem_cons_self with low | high
      · simp [Queues.enroll, low]
      · simp [Queues.enroll, high]

/-- A dispatch that does not queue the current process again takes the first ready one. -/
theorem schedule_ready (queues : Scheduler) {flag : SchedulerFlag}
    (quiet : flag ≠ .quantumCompleted) :
    (Queues.schedule queues flag).highQueue ++ (Queues.schedule queues flag).lowQueue =
        (queues.highQueue ++ queues.lowQueue).tail ∧
      (Queues.schedule queues flag).scheduledProc =
        (queues.highQueue ++ queues.lowQueue).head? := by
  rcases queues with ⟨curr, high, low, blocked, highQuantum, lowQuantum⟩
  cases high <;> cases low <;> cases flag <;>
    simp [Queues.schedule, Queues.pop, Queues.park, Queues.next] at quiet ⊢

/-- So consecutive dispatches empty the high queue and then the low one. -/
theorem dispatched_ready (kernel : Kernel) (flags : List SchedulerFlag)
    (quiet : ∀ flag ∈ flags, flag ≠ .quantumCompleted)
    (enough : flags.length = (kernel.scheduler.highQueue ++ kernel.scheduler.lowQueue).length) :
    dispatched kernel flags =
      (kernel.scheduler.highQueue ++ kernel.scheduler.lowQueue).map some := by
  induction flags generalizing kernel with
  | nil =>
      rw [List.length_eq_zero_iff.mp enough.symm]
      rfl
  | cons flag flags ih =>
      obtain ⟨left, scheduled⟩ := schedule_ready kernel.scheduler (quiet flag List.mem_cons_self)
      have rest := ih (scheduleProcess kernel flag)
        (fun other member => quiet other (List.mem_cons_of_mem _ member))
      rw [schedule_queues, left] at rest
      rw [dispatched, schedule_queues, scheduled]
      cases ready : kernel.scheduler.highQueue ++ kernel.scheduler.lowQueue with
      | nil => simp [ready] at enough
      | cons proc others =>
          rw [ready] at rest enough
          rw [rest (Nat.succ.inj enough)]
          rfl

/-- What the code does: priority 1 before priority 0. -/
theorem dispatched_after_loads {kernel : Kernel} (high : kernel.scheduler.highQueue = [])
    (low : kernel.scheduler.lowQueue = []) {loads : List Load} (documented : Documented loads)
    {flags : List SchedulerFlag} (quiet : ∀ flag ∈ flags, flag ≠ .quantumCompleted)
    (enough : flags.length = loads.length) :
    dispatched (createAll kernel loads) flags =
      (createdWith 1 kernel.nextProcId loads ++ createdWith 0 kernel.nextProcId loads).map
        some := by
  have order := dispatched_ready (createAll kernel loads) flags quiet
  rw [create_all_queues documented, high, low] at order
  exact order (enough.trans (created_with_length loads documented).symm)

/-- Processes are dispatched by the priorities of the program format exactly when all of
them have the same one. -/
theorem dispatched_by_priority_iff {kernel : Kernel} (high : kernel.scheduler.highQueue = [])
    (low : kernel.scheduler.lowQueue = []) {loads : List Load} (documented : Documented loads)
    {flags : List SchedulerFlag} (quiet : ∀ flag ∈ flags, flag ≠ .quantumCompleted)
    (enough : flags.length = loads.length) :
    DispatchedByPriority kernel loads flags ↔
      (∀ load ∈ loads, load.1.priority = 0) ∨ ∀ load ∈ loads, load.1.priority = 1 := by
  have injective : Function.Injective (List.map (some : ProcId → Option ProcId)) :=
    List.map_injective_iff.mpr (Option.some_injective _)
  rw [DispatchedByPriority, dispatched_after_loads high low documented quiet enough,
    injective.eq_iff, orders_agree_iff, created_with_nil_iff, created_with_nil_iff]
  apply or_congr
  · exact forall₂_congr fun load member => by
      rcases documented load member with low | high <;> omega
  · exact forall₂_congr fun load member => by
      rcases documented load member with low | high <;> omega

def loadWith (priority : Int) : Load :=
  ({ name := [], segId := 1, priority := priority, segSize := 4, semaphores := [], code := [] },
    fun _ => ⟨fun _ => ⟨.exec, 0, none⟩, false⟩)

theorem dispatched_by_priority_iff_sample :
    DispatchedByPriority kernelInit [loadWith 0, loadWith 0] [.none, .ioRequested] :=
  (dispatched_by_priority_iff rfl rfl (by decide) (by decide) rfl).mpr (by decide)

/-- Of a process with priority 0 and a later one with priority 1 the later one is
dispatched first. -/
theorem lowest_priority_first :
    Documented [loadWith 0, loadWith 1] ∧
      dispatched (createAll kernelInit [loadWith 0, loadWith 1]) [.none, .none] =
        [some 2, some 1] ∧
      ¬DispatchedByPriority kernelInit [loadWith 0, loadWith 1] [.none, .none] := by
  have order : dispatched (createAll kernelInit [loadWith 0, loadWith 1]) [.none, .none] =
      [some 2, some 1] := by decide
  refine ⟨by decide, order, ?_⟩
  rw [DispatchedByPriority, order]
  decide

end Ribabari.StartPriority
