import Ribabari.Model.LogViews

/-!
# A view as a gated queue

What a view thread is going to print is a queue that an append reaches through a gate. The
gate is closed while the cursor is null, and behind an entry at which the thread will leave
the loop. Each step of a view is a step of the queue.
-/

namespace Ribabari.ViewGate

open Ribabari.LogViews Ribabari.LinkedList Ribabari.TransitionSystem Ribabari.GatedQueue

set_option autoImplicit false

variable {α : Type*}

/-- The entries up to the first one at which the thread leaves the loop. -/
def through (stops : α → Bool) : List (LogLine α) → List (LogLine α)
  | [] => []
  | line :: lines => if stops line.entry then [line] else line :: through stops lines

/-- What is appended now stands behind the cursor. -/
def attached (viewer : Viewer α) (view : LogView α) : Bool :=
  match view.stage with
  | .starting => !viewer.waitsFirst || !view.appended.isEmpty
  | .seating => !viewer.waitsFirst || !view.appended.isEmpty
  | .testing i => i.isSome
  | .advancing _ => true
  | .jumping => false
  | .waiting _ => true
  | .stepping _ => true

/-- The loop is at its end, and the cursor has not been put on the tail yet. -/
def LeavingLoop (view : LogView α) : Prop := view.stage = .testing none ∨ view.stage = .jumping

instance (view : LogView α) : Decidable (LeavingLoop view) := inferInstanceAs (Decidable (_ ∨ _))

/-- What is appended now is going to be printed. -/
def reaches (viewer : Viewer α) (view : LogView α) : Bool :=
  attached viewer view && (view.unread viewer).all fun line => !viewer.stops line.entry

/-- The queue of a view. -/
def gateOf (viewer : Viewer α) (view : LogView α) : Gated (LogLine α) where
  offered := view.appended
  taken := view.printed
  held := through viewer.stops (view.unread viewer)
  isOpen := reaches viewer view

/-- A test under a cursor is the step that prints. -/
def prints (view : LogView α) : Bool :=
  match view.stage with
  | .testing i => i.isSome
  | _ => false

/-- The step of the queue behind a step of the view. -/
def gateEvent (viewer : Viewer α) (view : LogView α) : ViewEvent α → GateEvent (LogLine α)
  | .append entry =>
      .put { node := view.log.fresh, entry := entry } (reaches viewer (view.append entry))
  | .refresh =>
      if prints view then .take
      else .gate ((refreshStep viewer view).elim false (reaches viewer))

variable {viewer : Viewer α} {view after : LogView α} {lines : List (LogLine α)}
  {line : LogLine α} {garbage : α}

theorem prints_iff : prints view = true ↔ ∃ node, view.stage = .testing (some node) := by
  unfold prints
  split
  · rename_i i stage
    cases i <;> simp [stage]
  · rename_i other
    simp only [Bool.false_eq_true, false_iff, not_exists]
    exact fun node stage => other (some node) stage

theorem through_append (stops : α → Bool) (lines : List (LogLine α)) (new : LogLine α) :
    through stops (lines ++ [new]) =
      if lines.all fun line => !stops line.entry then through stops lines ++ [new]
      else through stops lines := by
  induction lines with
  | nil => simp [through]
  | cons line lines ih =>
      rw [List.cons_append, through, through, ih, List.all_cons]
      cases stops line.entry with
      | true => simp
      | false =>
          simp only [Bool.false_eq_true, if_false, Bool.not_false, Bool.true_and]
          split <;> rfl

theorem append_first (viewer : Viewer α) (entry : α)
    (stage : view.stage = .starting ∨ view.stage = .seating) :
    (view.append entry).unread viewer =
      view.unread viewer ++
        if attached viewer view then [{ node := view.log.fresh, entry := entry }] else [] := by
  rcases stage with stage | stage <;> cases waits : viewer.waitsFirst <;>
    cases lines : view.appended <;>
    simp [LogView.unread, LogView.append, attached, stage, waits, lines]

theorem append_behind (viewer : Viewer α) (sound : Sound view) (entry : α) {i : Option Address}
    (stage : view.stage = .advancing i ∨ view.stage = .waiting i ∨ view.stage = .stepping i) :
    (view.append entry).unread viewer =
      view.unread viewer ++
        if attached viewer view then [{ node := view.log.fresh, entry := entry }] else [] := by
  obtain ⟨line, member, rfl⟩ := cursor_line sound stage
  rcases stage with stage | stage | stage <;>
    simp only [LogView.unread, LogView.append, attached, stage, if_true] <;>
    exact behind_append member _

/-- An append is read behind the cursor, and not read where there is none. -/
theorem append_unread (viewer : Viewer α) (sound : Sound view) (entry : α) :
    (view.append entry).unread viewer =
      view.unread viewer ++
        if attached viewer view then [{ node := view.log.fresh, entry := entry }] else [] := by
  have placed := sound.placed
  cases stage : view.stage with
  | starting => exact append_first viewer entry (.inl stage)
  | seating => exact append_first viewer entry (.inr stage)
  | testing i =>
      rw [stage] at placed
      simp only [LogView.unread, LogView.append, attached, stage]
      rw [lines_from_append placed.2]
      cases i <;> simp
  | advancing i => exact append_behind viewer sound entry (.inl stage)
  | jumping => simp [LogView.unread, LogView.append, attached, stage]
  | waiting i => exact append_behind viewer sound entry (.inr (.inl stage))
  | stepping i => exact append_behind viewer sound entry (.inr (.inr stage))

theorem append_fires (sound : Sound view) (entry : α) :
    gateStep (gateOf viewer view) (gateEvent viewer view (.append entry)) =
      some (gateOf viewer (view.append entry)) := by
  have unread := append_unread viewer sound entry
  have held : through viewer.stops ((view.append entry).unread viewer) =
      if reaches viewer view then
        through viewer.stops (view.unread viewer) ++ [{ node := view.log.fresh, entry := entry }]
      else through viewer.stops (view.unread viewer) := by
    rw [unread, reaches]
    cases attached viewer view with
    | true =>
        rw [if_pos rfl, through_append, Bool.true_and]
    | false => simp
  simp only [gateStep, gateEvent, gateOf, held]
  rfl

/-- Printing takes the first entry of the queue. At an entry at which the thread leaves the
loop the gate has been closed since that entry was put. -/
theorem print_fires (sound : Sound view) (printing : prints view = true)
    (fired : refreshStep viewer view = some after) :
    gateStep (gateOf viewer view) .take = some (gateOf viewer after) := by
  obtain ⟨node, stage⟩ := prints_iff.mp printing
  obtain ⟨line, -, rest, -, here, printed⟩ := print_moved viewer sound stage
  obtain rfl := Option.some.inj (printed.symm.trans fired)
  have unread : view.unread viewer = line :: rest := by
    rw [LogView.unread, stage]
    exact here
  have gate : reaches viewer view = (line :: rest).all fun line => !viewer.stops line.entry := by
    rw [reaches, unread, attached, stage]
    exact Bool.true_and _
  cases stops : viewer.stops line.entry with
  | true =>
      have last : through viewer.stops (line :: rest) = [line] := by
        rw [through, stops, if_pos rfl]
      have closed : reaches viewer view = false := by
        rw [gate, List.all_cons, stops, Bool.not_true, Bool.false_and]
      simp only [gateStep, gateOf, unread, last, closed]
      rfl
  | false =>
      have first : through viewer.stops (line :: rest) = line :: through viewer.stops rest := by
        rw [through, stops, if_neg Bool.false_ne_true]
      have left : (linesFrom view.appended (some node)).drop 1 = rest := by
        rw [here, List.drop_one, List.tail_cons]
      rw [List.all_cons, stops, Bool.not_false, Bool.true_and] at gate
      simp only [gateStep, gateOf, unread, first, gate]
      rw [← left]
      rfl

theorem refresh_fires (sound : Sound view) (fired : refreshStep viewer view = some after) :
    gateStep (gateOf viewer view) (gateEvent viewer view .refresh) = some (gateOf viewer after) := by
  cases printing : prints view with
  | true =>
      rw [gateEvent, printing, if_pos rfl]
      exact print_fires sound printing fired
  | false =>
      have quiet : ∀ node, view.stage ≠ .testing (some node) := by
        intro node stage
        rw [prints_iff.mpr ⟨node, stage⟩] at printing
        simp at printing
      have moved := refresh_moved sound fired quiet
      rw [gateEvent, printing, if_neg Bool.false_ne_true, fired]
      simp only [gateStep, gateOf, moved.appended, moved.printed, moved.unread, Option.elim_some]

theorem gate_put (viewer : Viewer α) (view : LogView α) (event : ViewEvent α) :
    (putItem (gateEvent viewer view event)).isSome = true ↔ event ≠ .refresh := by
  cases event with
  | append entry => simp [gateEvent, putItem]
  | refresh =>
      cases printing : prints view <;> simp [gateEvent, putItem, printing]

theorem gate_take (viewer : Viewer α) (view : LogView α) (event : ViewEvent α) :
    gateEvent viewer view event = .take ↔ event = .refresh ∧ prints view = true := by
  cases event with
  | append entry => simp [gateEvent]
  | refresh => simp [gateEvent]

/-- A run of a view is a run of its queue. -/
theorem gate_trace {past : List (LogView α × ViewEvent α)}
    (trace : Trace (viewSystem viewer garbage) past view) :
    Trace (gatedQueue !viewer.waitsFirst)
      (past.map fun entry => (gateOf viewer entry.1, gateEvent viewer entry.1 entry.2))
      (gateOf viewer view) := by
  apply trace_map (gateOf viewer) (gateEvent viewer) _ _ trace
  · cases waits : viewer.waitsFirst <;>
      simp [gateOf, gatedQueue, viewSystem, reaches, attached, LogView.unread, through, waits]
  · intro before event after reached fired
    obtain ⟨past, trace⟩ := reached
    have sound := visited_sound trace before (last_visited _ _)
    cases event with
    | append entry =>
        obtain rfl := Option.some.inj fired
        exact append_fires sound entry
    | refresh => exact refresh_fires sound fired

end Ribabari.ViewGate
