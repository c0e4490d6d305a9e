import Ribabari.Foundation.TransitionSystem

/-!
# Logs that can be replayed

A system appends to a log, and an auditor that sees nothing but the log moves by one
entry at a time. When every step appends entries that take the auditor from the record
of the state before to the record of the state after, the log of a reachable state can
be replayed from the start and gives that state's record.
-/

namespace Ribabari.LogReplay

open Ribabari.TransitionSystem

set_option autoImplicit false

variable {State Event Record Entry : Type*}

structure Audited (system : System State Event) (auditor : System Record Entry) where
  log : State → List Entry
  record : State → Record
  startLog : log system.start = []
  startRecord : record system.start = auditor.start
  writes : ∀ {before event after}, Reachable system before →
    system.step before event = some after →
      ∃ written, log after = log before ++ written ∧
        run auditor written (record before) = some (record after)

variable {system : System State Event} {auditor : System Record Entry} {state : State}

namespace Audited

theorem replays (audited : Audited system auditor) (reached : Reachable system state) :
    run auditor (audited.log state) auditor.start = some (audited.record state) := by
  apply reachable_invariant (fun state =>
    run auditor (audited.log state) auditor.start = some (audited.record state)) reached
  · rw [audited.startLog, audited.startRecord]
    rfl
  · intro before event after prior replayed fired
    obtain ⟨written, appended, accepted⟩ := audited.writes prior fired
    rw [appended, run_append, replayed, Option.bind_some, accepted]

end Audited

end Ribabari.LogReplay
