import Ribabari.Kernel.DeadlockFreedom
import Ribabari.Kernel.InstructionFetch

/-!
# Semaphores under the cpu

The kernel's results on semaphores speak of runs that evaluate each process's own
code and finish a process at its end. A run of the cpu in which no first pass enters
past the end is such a run, so they hold of it.
-/

namespace Ribabari.CpuGuarantees

open Ribabari.ProcessRecords Ribabari.KernelState Ribabari.KernelEvents Ribabari.CpuLoop
open Ribabari.ProgramLedger Ribabari.SemaphoreAccounts Ribabari.MutualExclusion
open Ribabari.DeadlockFreedom Ribabari.InstructionFetch Ribabari.TransitionSystem

set_option autoImplicit false

/-- Every program loaded satisfies `ok`. -/
def LoadsCode (ok : List Instr → Prop) : CpuEvent → Prop
  | .processCreate program _ => ok program.code
  | _ => True

instance (ok : List Instr → Prop) [DecidablePred ok] : DecidablePred (LoadsCode ok)
  | .processCreate program _ => inferInstanceAs (Decidable (ok program.code))
  | .pass _ | .diskTick => inferInstanceAs (Decidable True)

variable {past : List ((Cpu × Ledger) × CpuEvent)} {state : Cpu × Ledger}

theorem action_loads {ok : List Instr → Prop} {cpu : Cpu} {event : CpuEvent}
    {action : KernelEvent} (loads : LoadsCode ok event) (acts : cpuAction cpu event = some action) :
    Loads ok action := by
  cases action with
  | processCreate program fresh =>
      rw [create_action acts] at loads
      exact loads
  | idleDispatch | execute | quantumCompleted | processFinish | diskTick => trivial

theorem projected_loads {ok : List Instr → Prop}
    (loads : ∀ entry ∈ past, LoadsCode ok entry.2) :
    ∀ entry ∈ cpuRefinesKernel.project past, Loads ok entry.2 := by
  apply cpuRefinesKernel.project_allowed fun _ event => Loads ok event
  intro source member action acts
  exact action_loads (loads source member) acts

/-- What every program loaded satisfies holds of all code in the ledger. -/
theorem visited_loaded_ok (ok : List Instr → Prop) (empty : ok [])
    (trace : Trace recordedCpu past state) (loads : ∀ entry ∈ past, LoadsCode ok entry.2) :
    ∀ seen ∈ visited past state, ∀ proc, ok (seen.2.loaded proc) := by
  refine trace_visited_invariant (fun _ event => LoadsCode ok event)
    (fun state => ∀ proc, ok (state.2.loaded proc)) trace loads (fun _ => empty) ?_
  intro before event after _ holds allowed fired
  obtain ⟨step, record⟩ := history_step fired
  rw [record]
  cases acts : cpuAction before.1 event with
  | none => exact holds
  | some action => exact record_loaded_ok ok holds (action_loads allowed acts)

/-- The cpu finishes a process at the end of its code only. -/
theorem projected_finishes_at_end (past : List ((Cpu × Ledger) × CpuEvent)) :
    ∀ entry ∈ cpuRefinesKernel.project past, FinishesAtEnd entry.1 entry.2 := by
  apply cpuRefinesKernel.project_allowed FinishesAtEnd
  intro source _ action acts
  cases action with
  | processFinish =>
      rcases source with ⟨⟨cpu, ledger⟩, elapsed | ⟨program, fresh⟩ | _⟩
      · rcases pass_action acts with same | ⟨_, _, _, _, _, same⟩ | ⟨proc, running, ended, -⟩ | same
        · exact nomatch same
        · exact nomatch same
        · intro other otherRunning
          obtain rfl : proc = other := Option.some.inj (running.symm.trans otherRunning)
          exact ended
        · exact nomatch same
      · exact nomatch Option.some.inj acts
      · exact nomatch Option.some.inj acts
  | processCreate | idleDispatch | execute | quantumCompleted | diskTick => trivial

section Runs

variable (trace : Trace recordedCpu past state)
  (unique : ∀ entry ∈ past, FreshLoad entry.1 entry.2)
  (quiet : ∀ entry ∈ past, ¬EntersPastEnd entry.1 entry.2)

include trace unique quiet

theorem kernel_fetches_in_range :
    ∀ entry ∈ cpuRefinesKernel.project past, FetchInRange entry.1 entry.2 := by
  apply projected_in_range trace unique
  intro entry member
  exact (fetch_below_end_iff (trace_entry trace member).1 entry.2).mpr (quiet entry member)

/-- Two processes are never inside the same critical section. -/
theorem cpu_section_exclusive {name : CString}
    (bracketed : ∀ entry ∈ past, LoadsCode (Bracketed name) entry.2) {first second : ProcId}
    (firstInside : Inside name (state.1.kernel, state.2) first)
    (secondInside : Inside name (state.1.kernel, state.2) second) : first = second :=
  inside_unique (cpuRefinesKernel.trace trace) (projected_loads bracketed)
    (kernel_fetches_in_range trace unique quiet) firstInside secondInside

/-- The processes never all wait for semaphores. -/
theorem cpu_not_deadlocked {before : CString → CString → Prop} [IsStrictOrder CString before]
    (ordered : ∀ entry ∈ past, LoadsCode (Ordered before) entry.2)
    (nonempty : state.1.kernel.procTable ≠ []) :
    ∃ proc ∈ state.1.kernel.procTable, ∀ name, proc ∉ waiters state.1.kernel name :=
  some_live_process_awake (cpuRefinesKernel.trace trace) (projected_loads ordered)
    (kernel_fetches_in_range trace unique quiet) (projected_finishes_at_end past) nonempty

end Runs

end Ribabari.CpuGuarantees
