import Ribabari.Model.KernelEvents

/-!
# The cpu thread

`cpu.c` with its control points. Loads and disk ticks come from other threads and
may fall between any two of them. The outcome of each elapsed test is an input.
-/

namespace Ribabari.CpuLoop

open Ribabari.ProcessRecords Ribabari.SegmentMemory Ribabari.KernelState
open Ribabari.KernelEvents Ribabari.TransitionSystem

set_option autoImplicit false

/-- `outer` is the head of `while (1)`, `body` the head of the `do` block, entered
for the first time or again, `condition` its `while` test, `ending` what follows. -/
inductive Control where
  | outer
  | body (first : Bool)
  | condition
  | ending
  deriving DecidableEq, Repr

structure Cpu where
  kernel : Kernel
  control : Control
  noProcess : Bool

inductive CpuEvent where
  | pass (elapsed : Bool)
  | processCreate (program : Program) (fresh : Nat → Page)
  | diskTick

/-- The fetch of the instruction at `FETCH_INSTR_ADDR`. -/
def fetchScheduled (kernel : Kernel) : Option Instr := do
  let proc ← kernel.scheduler.scheduledProc
  fetchInstr kernel.segTable (kernel.procs proc).segId (kernel.procs proc).pc

/-- The condition of the `do`-`while` loop. -/
def goesOn (kernel : Kernel) : Bool :=
  match kernel.scheduler.scheduledProc with
  | none => false
  | some proc =>
      0 < (kernel.procs proc).remaining && (kernel.procs proc).pc < (kernel.procs proc).codeLen

def Cpu.fire (cpu : Cpu) (event : KernelEvent) (control : Control) : Option Cpu :=
  (kernelStep cpu.kernel event).map fun kernel =>
    { cpu with
      kernel := kernel
      control := control }

def cpuPass (cpu : Cpu) (elapsed : Bool) : Option Cpu :=
  match cpu.control with
  | .outer =>
      match cpu.kernel.scheduler.scheduledProc with
      | none => Cpu.fire { cpu with noProcess := true } (.idleDispatch (!cpu.noProcess)) .outer
      | some _ => some
          { cpu with
            noProcess := false
            control := .body true }
  | .body _ =>
      if elapsed then
        (fetchScheduled cpu.kernel).bind fun instr => cpu.fire (.execute instr) .condition
      else some { cpu with control := .condition }
  | .condition =>
      some { cpu with control := if goesOn cpu.kernel then .body false else .ending }
  | .ending =>
      match cpu.kernel.scheduler.scheduledProc with
      | none => some { cpu with control := .outer }
      | some proc =>
          if (cpu.kernel.procs proc).codeLen ≤ (cpu.kernel.procs proc).pc then
            cpu.fire .processFinish .outer
          else cpu.fire .quantumCompleted .outer

def cpuStep (cpu : Cpu) : CpuEvent → Option Cpu
  | .pass elapsed => cpuPass cpu elapsed
  | .processCreate program fresh => cpu.fire (.processCreate program fresh) cpu.control
  | .diskTick => cpu.fire .diskTick cpu.control

def cpuSystem : System Cpu CpuEvent where
  start :=
    { kernel := kernelInit
      control := .outer
      noProcess := false }
  step := cpuStep

/-- The kernel event a step consists of, if any. -/
def cpuAction (cpu : Cpu) : CpuEvent → Option KernelEvent
  | .processCreate program fresh => some (.processCreate program fresh)
  | .diskTick => some .diskTick
  | .pass elapsed =>
      match cpu.control with
      | .outer =>
          if cpu.kernel.scheduler.scheduledProc = none then some (.idleDispatch (!cpu.noProcess))
          else none
      | .body _ => if elapsed then (fetchScheduled cpu.kernel).map .execute else none
      | .condition => none
      | .ending => cpu.kernel.scheduler.scheduledProc.map fun proc =>
          if (cpu.kernel.procs proc).codeLen ≤ (cpu.kernel.procs proc).pc then .processFinish
          else .quantumCompleted

/-- What a pass can do to the kernel. -/
theorem pass_action {cpu : Cpu} {elapsed : Bool} {action : KernelEvent}
    (acts : cpuAction cpu (.pass elapsed) = some action) :
    action = .idleDispatch (!cpu.noProcess) ∨
      (∃ first instr, cpu.control = .body first ∧ elapsed = true ∧
        fetchScheduled cpu.kernel = some instr ∧ action = .execute instr) ∨
      (∃ proc, cpu.kernel.scheduler.scheduledProc = some proc ∧
        (cpu.kernel.procs proc).codeLen ≤ (cpu.kernel.procs proc).pc ∧ action = .processFinish) ∨
      action = .quantumCompleted := by
  simp only [cpuAction] at acts
  split at acts
  case h_1 =>
      split at acts
      · exact .inl (Option.some.inj acts).symm
      · exact nomatch acts
  case h_2 first control =>
      split at acts
      case isTrue due =>
          obtain ⟨instr, fetched, rfl⟩ := Option.map_eq_some_iff.mp acts
          exact .inr (.inl ⟨first, instr, control, due, fetched, rfl⟩)
      case isFalse => exact nomatch acts
  case h_3 => exact nomatch acts
  case h_4 =>
      obtain ⟨proc, running, rfl⟩ := Option.map_eq_some_iff.mp acts
      split
      case isTrue ended => exact .inr (.inr (.inl ⟨proc, running, ended, rfl⟩))
      case isFalse => exact .inr (.inr (.inr rfl))

/-- Only the `do` block evaluates, and it evaluates what it fetches. -/
theorem execute_action {cpu : Cpu} {event : CpuEvent} {instr : Instr}
    (acts : cpuAction cpu event = some (.execute instr)) :
    event = .pass true ∧ (∃ first, cpu.control = .body first) ∧
      fetchScheduled cpu.kernel = some instr := by
  rcases event with elapsed | ⟨program, fresh⟩ | _
  · rcases pass_action acts with same | ⟨first, other, control, rfl, found, same⟩ |
        ⟨_, _, _, same⟩ | same
    · exact nomatch same
    · cases same
      exact ⟨rfl, ⟨first, control⟩, found⟩
    · exact nomatch same
    · exact nomatch same
  · exact nomatch Option.some.inj acts
  · exact nomatch Option.some.inj acts

theorem fire_kernel {cpu after : Cpu} {event : KernelEvent} {control : Control}
    (fired : cpu.fire event control = some after) :
    kernelStep cpu.kernel event = some after.kernel ∧ after.control = control := by
  obtain ⟨kernel, step, rfl⟩ := Option.map_eq_some_iff.mp fired
  exact ⟨step, rfl⟩

/-- The `do` block is entered again from the `while` test only, when it holds. -/
theorem pass_again {cpu after : Cpu} {elapsed : Bool} (fired : cpuPass cpu elapsed = some after)
    (again : after.control = .body false) :
    goesOn cpu.kernel = true ∧ after.kernel = cpu.kernel := by
  have elsewhere : ∀ {before : Cpu} {event : KernelEvent} {control : Control},
      control ≠ .body false → ¬before.fire event control = some after :=
    fun different fired => different ((fire_kernel fired).2.symm.trans again)
  simp only [cpuPass] at fired
  split at fired
  case h_1 =>
      split at fired
      · exact absurd fired (elsewhere Control.noConfusion)
      · obtain rfl := Option.some.inj fired
        simp at again
  case h_2 =>
      split at fired
      · obtain ⟨instr, -, fired⟩ := Option.bind_eq_some_iff.mp fired
        exact absurd fired (elsewhere Control.noConfusion)
      · obtain rfl := Option.some.inj fired
        exact Control.noConfusion again
  case h_3 =>
      obtain rfl := Option.some.inj fired
      cases goes : goesOn cpu.kernel with
      | true => exact ⟨rfl, rfl⟩
      | false => simp [goes] at again
  case h_4 =>
      split at fired
      · obtain rfl := Option.some.inj fired
        exact Control.noConfusion again
      · split at fired <;> exact absurd fired (elsewhere Control.noConfusion)

/-- A step of the cpu system is its action on the kernel. -/
theorem step_action {cpu after : Cpu} {event : CpuEvent} (fired : cpuStep cpu event = some after) :
    (cpuAction cpu event = none ∧ after.kernel = cpu.kernel) ∨
      ∃ action, cpuAction cpu event = some action ∧
        kernelStep cpu.kernel action = some after.kernel := by
  cases event with
  | processCreate program fresh => exact .inr ⟨_, rfl, (fire_kernel fired).1⟩
  | diskTick => exact .inr ⟨_, rfl, (fire_kernel fired).1⟩
  | pass elapsed =>
      simp only [cpuStep, cpuPass] at fired
      simp only [cpuAction]
      cases control : cpu.control with
      | outer =>
          simp only [control] at fired
          split at fired
          case h_1 idle => exact .inr ⟨_, if_pos idle, (fire_kernel fired).1⟩
          case h_2 proc running =>
              obtain rfl := Option.some.inj fired
              exact .inl ⟨if_neg (by simp [running]), rfl⟩
      | body first =>
          simp only [control] at fired
          cases elapsed with
          | true =>
              obtain ⟨instr, fetched, fired⟩ := Option.bind_eq_some_iff.mp fired
              exact .inr ⟨.execute instr, by simp [fetched], (fire_kernel fired).1⟩
          | false =>
              obtain rfl := Option.some.inj fired
              exact .inl ⟨rfl, rfl⟩
      | condition =>
          simp only [control, Option.some.injEq] at fired
          obtain rfl := fired
          exact .inl ⟨rfl, rfl⟩
      | ending =>
          simp only [control] at fired
          split at fired
          case h_1 idle =>
              obtain rfl := Option.some.inj fired
              exact .inl ⟨by simp [idle], rfl⟩
          case h_2 proc running =>
              split at fired
              case isTrue ended =>
                  exact .inr ⟨.processFinish, by simp [running, ended], (fire_kernel fired).1⟩
              case isFalse more =>
                  exact .inr ⟨.quantumCompleted, by simp [running, more], (fire_kernel fired).1⟩

end Ribabari.CpuLoop
