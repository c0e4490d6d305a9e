import Mathlib.Data.List.TakeWhile
import Ribabari.Foundation.GatedQueue
import Ribabari.Model.KernelState
import Ribabari.Model.LinkedList

/-!
# The log views

The threads of `terminal.c` that print the log lists. A producer appends an entry and posts
the semaphore of the view; the thread walks the list with a cursor, puts the cursor on the
tail when it has reached the end, and waits. The windows, and the totals in their titles,
are left out: an entry is printed as a whole.
-/

namespace Ribabari.LogViews

open Ribabari.KernelState Ribabari.LinkedList Ribabari.TransitionSystem Ribabari.GatedQueue

set_option autoImplicit false

variable {α : Type*}

/-- An entry of a log list, in its node. -/
structure LogLine (α : Type*) where
  node : Address
  entry : α
  deriving DecidableEq, Repr

/-- Where a view thread stands, with its cursor `i`: before the first wait, before
`i = list->head`, before the test of the `for` loop, before its `i = i->next`, behind the
loop, before the wait, and before the `i = i->next` behind the wait. -/
inductive ViewStage where
  | starting
  | seating
  | testing (i : Option Address)
  | advancing (i : Option Address)
  | jumping
  | waiting (i : Option Address)
  | stepping (i : Option Address)
  deriving DecidableEq, Repr

/-- What the view threads differ in: whether the thread waits, and takes a step, before its
first pass of the loop, and which entries it leaves the loop at. -/
structure Viewer (α : Type*) where
  waitsFirst : Bool
  stops : α → Bool

/-- A log list, the value of the semaphore, and the view thread. What has been appended and
what has been printed are recorded. -/
structure LogView (α : Type*) where
  log : StoredList α
  posts : Nat
  stage : ViewStage
  appended : List (LogLine α)
  printed : List (LogLine α)

/-- The step of a producer, and the next step of the view thread. -/
inductive ViewEvent (α : Type*) where
  | append (entry : α)
  | refresh
  deriving DecidableEq

/-- `list_add` and `sem_post`. -/
def LogView.append (view : LogView α) (entry : α) : LogView α :=
  { view with
    log := view.log.add entry
    posts := view.posts + 1
    appended := view.appended ++ [{ node := view.log.fresh, entry := entry }] }

/-- `sem_wait`. -/
def LogView.wait (view : LogView α) (stage : ViewStage) : Option (LogView α) :=
  if view.posts = 0 then none
  else some
    { view with
      posts := view.posts - 1
      stage := stage }

/-- `i = i->next`, undefined where `i` is null. -/
def LogView.next (view : LogView α) (i : Option Address) : Option (LogView α) :=
  i.map fun node => { view with stage := .testing (view.log.heap node).next }

/-- The body of the loop. -/
def LogView.print (viewer : Viewer α) (view : LogView α) (node : Address) : LogView α :=
  let entry := (view.log.heap node).content
  { view with
    printed := view.printed ++ [{ node := node, entry := entry }]
    stage := if viewer.stops entry then .jumping else .advancing (some node) }

def refreshStep (viewer : Viewer α) (view : LogView α) : Option (LogView α) :=
  match view.stage with
  | .starting => view.wait .seating
  | .seating => some
      { view with
        stage :=
          if viewer.waitsFirst then .waiting view.log.list.head
          else .testing view.log.list.head }
  | .testing none => some { view with stage := .jumping }
  | .testing (some node) => some (view.print viewer node)
  | .advancing i => view.next i
  | .jumping => some { view with stage := .waiting view.log.list.tail }
  | .waiting i => view.wait (.stepping i)
  | .stepping i => view.next i

def viewStep (viewer : Viewer α) (view : LogView α) : ViewEvent α → Option (LogView α)
  | .append entry => some (view.append entry)
  | .refresh => refreshStep viewer view

/-- Before the first entry, with memory that holds anything. -/
def viewSystem (viewer : Viewer α) (garbage : α) : System (LogView α) (ViewEvent α) where
  start :=
    { log := StoredList.init garbage
      posts := 0
      stage := .starting
      appended := []
      printed := [] }
  step := viewStep viewer

/-- The threads that print every entry. -/
def wholeLog : Viewer α where
  waitsFirst := false
  stops := fun _ => false

def refreshDisk : DiskLogInfo → System (LogView DiskLogInfo) (ViewEvent DiskLogInfo) :=
  viewSystem wholeLog

def refreshIoLog : IoLogInfo → System (LogView IoLogInfo) (ViewEvent IoLogInfo) :=
  viewSystem wholeLog

def refreshResAcq : ResAcqLog → System (LogView ResAcqLog) (ViewEvent ResAcqLog) :=
  viewSystem wholeLog

/-- The process view, whose thread leaves the loop when it has printed that no process was
running. -/
def processViewer : Viewer (Option ProcLogInfo) where
  waitsFirst := true
  stops := Option.isNone

def refreshProcessLog : System (LogView (Option ProcLogInfo)) (ViewEvent (Option ProcLogInfo)) :=
  viewSystem processViewer none

/-- The entries from a cursor on. -/
def linesFrom (lines : List (LogLine α)) : Option Address → List (LogLine α)
  | none => []
  | some node => lines.dropWhile fun line => line.node ≠ node

/-- The entries that a pass of the loop still has in front of it, or the next one will
have: those behind the cursor, where the thread does not stand before a test. -/
def LogView.unread (viewer : Viewer α) (view : LogView α) : List (LogLine α) :=
  match view.stage with
  | .starting => if viewer.waitsFirst then view.appended.drop 1 else view.appended
  | .seating => if viewer.waitsFirst then view.appended.drop 1 else view.appended
  | .testing i => linesFrom view.appended i
  | .advancing i => (linesFrom view.appended i).drop 1
  | .jumping => []
  | .waiting i => (linesFrom view.appended i).drop 1
  | .stepping i => (linesFrom view.appended i).drop 1

/-! ## Well-formed views -/

/-- Where the cursor may stand, and how many posts there are then. -/
def Placed (view : LogView α) : ViewStage → Prop
  | .starting => view.posts = view.appended.length
  | .seating => view.posts + 1 = view.appended.length
  | .testing i => view.appended ≠ [] ∧ ∀ node ∈ i, ∃ line ∈ view.appended, line.node = node
  | .advancing i => ∃ line ∈ view.appended, i = some line.node
  | .jumping => view.appended ≠ []
  | .waiting i => (∃ line ∈ view.appended, i = some line.node) ∧
      ((linesFrom view.appended i).drop 1).length ≤ view.posts
  | .stepping i => ∃ line ∈ view.appended, i = some line.node

structure Sound (view : LogView α) : Prop where
  stores : Stores view.log (view.appended.map LogLine.node) (view.appended.map LogLine.entry)
  placed : Placed view view.stage

variable {viewer : Viewer α} {view after : LogView α} {lines front rear : List (LogLine α)}
  {line : LogLine α} {i : Option Address}

theorem lines_from_split (first : ∀ other ∈ front, other.node ≠ line.node) :
    linesFrom (front ++ line :: rear) (some line.node) = line :: rear := by
  have skipped : ∀ other ∈ front, decide (other.node ≠ line.node) = true :=
    fun other member => decide_eq_true (first other member)
  rw [linesFrom, List.dropWhile_append_of_pos skipped]
  exact List.dropWhile_cons_of_neg (by simp)

/-- The nodes of the entries are distinct. -/
theorem split_apart (distinct : ((front ++ line :: rear).map LogLine.node).Nodup) :
    ∀ other ∈ front, other.node ≠ line.node := by
  intro other member same
  rw [List.map_append, List.map_cons, List.nodup_append] at distinct
  exact distinct.2.2 other.node (List.mem_map_of_mem member) line.node List.mem_cons_self same

theorem lines_from_append (known : ∀ node ∈ i, ∃ line ∈ lines, line.node = node)
    (new : LogLine α) :
    linesFrom (lines ++ [new]) i = linesFrom lines i ++ if i = none then [] else [new] := by
  cases i with
  | none => rfl
  | some node =>
      obtain ⟨line, member, rfl⟩ := known node rfl
      have stops : lines.dropWhile (fun other => other.node ≠ line.node) ≠ [] := by
        intro passed
        simpa using List.dropWhile_eq_nil_iff.mp passed line member
      simp only [linesFrom, List.dropWhile_append, List.isEmpty_iff, if_neg stops]
      simp

/-- An entry is appended behind every cursor at an entry. -/
theorem behind_append (member : line ∈ lines) (new : LogLine α) :
    (linesFrom (lines ++ [new]) (some line.node)).drop 1 =
      (linesFrom lines (some line.node)).drop 1 ++ [new] := by
  have known : ∀ node ∈ some line.node, ∃ other ∈ lines, other.node = node := by
    rintro node ⟨⟩
    exact ⟨line, member, rfl⟩
  have here : linesFrom lines (some line.node) ≠ [] := by
    intro passed
    simpa using List.dropWhile_eq_nil_iff.mp passed line member
  rw [lines_from_append known, if_neg (by simp),
    List.drop_append_of_le_length (List.length_pos_iff.mpr here)]

/-- An appended entry in its node, with the entries from it on and those behind it. -/
theorem sound_line (sound : Sound view) (member : line ∈ view.appended) :
    ∃ rear, linesFrom view.appended (some line.node) = line :: rear ∧
      linesFrom view.appended (view.log.heap line.node).next = rear ∧
      (∀ node ∈ (view.log.heap line.node).next, ∃ other ∈ view.appended, other.node = node) ∧
      (view.log.heap line.node).content = line.entry := by
  obtain ⟨front, rear, split⟩ := List.append_of_mem member
  have linked := sound.stores.holds.1.linked
  have contents := sound.stores.holds.2
  rw [split] at linked contents ⊢
  have distinct := linked.distinct
  have next : (view.log.heap line.node).next = (rear.map LogLine.node).head? := by
    rw [List.map_append, List.map_cons] at linked
    exact linked.next_at
  have content : (view.log.heap line.node).content = line.entry := by
    rw [List.map_map] at contents
    exact List.map_inj_left.mp contents line (by simp)
  refine ⟨rear, lines_from_split (split_apart distinct), ?_, ?_, content⟩
  · rw [next]
    cases rear with
    | nil => rfl
    | cons second rear =>
        rw [List.append_cons] at distinct ⊢
        exact lines_from_split (split_apart distinct)
  · intro node isNext
    rw [next] at isNext
    obtain ⟨other, otherMember, same⟩ := List.mem_map.mp (List.mem_of_mem_head? isNext)
    exact ⟨other, by simp [otherMember], same⟩

theorem sound_head (sound : Sound view) (nonempty : view.appended ≠ []) :
    ∃ line ∈ view.appended, view.log.list.head = some line.node ∧
      linesFrom view.appended (some line.node) = view.appended := by
  have head := sound.stores.holds.1.head
  obtain ⟨first, rest, lines⟩ := List.exists_cons_of_ne_nil nonempty
  have whole : linesFrom ([] ++ first :: rest) (some first.node) = first :: rest :=
    lines_from_split (by simp)
  rw [lines] at head ⊢
  exact ⟨first, by simp, head, whole⟩

theorem sound_tail (sound : Sound view) (nonempty : view.appended ≠ []) :
    ∃ line ∈ view.appended, view.log.list.tail = some line.node ∧
      linesFrom view.appended (some line.node) = [line] := by
  have tail := sound.stores.holds.1.tail
  have distinct := sound.stores.holds.1.linked.distinct
  obtain ⟨front, last, lines⟩ := (List.eq_nil_or_concat view.appended).resolve_left nonempty
  rw [List.concat_eq_append] at lines
  rw [lines] at tail distinct ⊢
  refine ⟨last, by simp, ?_, lines_from_split (split_apart distinct)⟩
  simpa using tail

/-- Behind a test and at a wait the cursor stands at an entry. -/
theorem cursor_line (sound : Sound view)
    (stage : view.stage = .advancing i ∨ view.stage = .waiting i ∨ view.stage = .stepping i) :
    ∃ line ∈ view.appended, i = some line.node := by
  have placed := sound.placed
  rcases stage with stage | stage | stage
  · rw [stage] at placed
    exact placed
  · rw [stage] at placed
    exact placed.1
  · rw [stage] at placed
    exact placed

/-! ## Steps -/

theorem start_sound (viewer : Viewer α) (garbage : α) : Sound (viewSystem viewer garbage).start where
  stores := init_stores garbage
  placed := rfl

theorem append_sound (sound : Sound view) (entry : α) : Sound (view.append entry) := by
  have placed := sound.placed
  constructor
  · simpa [LogView.append] using add_stores sound.stores entry
  · change Placed (view.append entry) view.stage
    cases stage : view.stage with
    | starting =>
        rw [stage] at placed
        simpa [Placed, LogView.append] using placed
    | seating =>
        rw [stage] at placed
        simpa [Placed, LogView.append] using placed
    | testing i =>
        rw [stage] at placed
        refine ⟨by simp [LogView.append], fun node isCursor => ?_⟩
        obtain ⟨line, member, same⟩ := placed.2 node isCursor
        exact ⟨line, List.mem_append_left _ member, same⟩
    | advancing i =>
        rw [stage] at placed
        obtain ⟨line, member, same⟩ := placed
        exact ⟨line, List.mem_append_left _ member, same⟩
    | jumping => simp [Placed, LogView.append]
    | waiting i =>
        rw [stage] at placed
        obtain ⟨⟨line, member, rfl⟩, covered⟩ := placed
        refine ⟨⟨line, List.mem_append_left _ member, rfl⟩, ?_⟩
        change ((linesFrom (view.appended ++ _) (some line.node)).drop 1).length ≤ view.posts + 1
        rw [behind_append member, List.length_append]
        exact Nat.succ_le_succ covered
    | stepping i =>
        rw [stage] at placed
        obtain ⟨line, member, same⟩ := placed
        exact ⟨line, List.mem_append_left _ member, same⟩

theorem wait_inv {stage : ViewStage} (fired : view.wait stage = some after) :
    0 < view.posts ∧ after = { view with posts := view.posts - 1, stage := stage } := by
  unfold LogView.wait at fired
  split at fired
  · simp at fired
  · exact ⟨Nat.pos_of_ne_zero ‹_›, (Option.some.inj fired).symm⟩

theorem next_inv (cursor : ∃ line ∈ view.appended, i = some line.node)
    (fired : view.next i = some after) :
    ∃ line ∈ view.appended, i = some line.node ∧
      after = { view with stage := .testing (view.log.heap line.node).next } := by
  obtain ⟨line, member, rfl⟩ := cursor
  exact ⟨line, member, rfl, (Option.some.inj fired).symm⟩

/-- A step that prints nothing leaves the entries that are to be printed as they are. -/
structure Moved (viewer : Viewer α) (view after : LogView α) : Prop where
  log : after.log = view.log
  appended : after.appended = view.appended
  printed : after.printed = view.printed
  unread : after.unread viewer = view.unread viewer
  placed : Placed after after.stage

theorem next_moved (sound : Sound view) (member : line ∈ view.appended)
    (unread : view.unread viewer = (linesFrom view.appended (some line.node)).drop 1) :
    Moved viewer view { view with stage := .testing (view.log.heap line.node).next } := by
  obtain ⟨rear, here, next, known, -⟩ := sound_line sound member
  rw [here, List.drop_one, List.tail_cons] at unread
  exact
    { log := rfl
      appended := rfl
      printed := rfl
      unread := next.trans unread.symm
      placed := ⟨List.ne_nil_of_mem member, known⟩ }

theorem refresh_moved (sound : Sound view) (fired : refreshStep viewer view = some after)
    (quiet : ∀ node, view.stage ≠ .testing (some node)) : Moved viewer view after := by
  have placed := sound.placed
  cases stage : view.stage with
  | starting =>
      rw [stage] at placed
      simp only [refreshStep, stage] at fired
      obtain ⟨positive, rfl⟩ := wait_inv fired
      have counted : view.posts = view.appended.length := placed
      refine ⟨rfl, rfl, rfl, ?_, ?_⟩
      · simp [LogView.unread, stage]
      · change view.posts - 1 + 1 = view.appended.length
        omega
  | seating =>
      rw [stage] at placed
      have counted : view.posts + 1 = view.appended.length := placed
      have nonempty : view.appended ≠ [] := List.ne_nil_of_length_eq_add_one counted.symm
      obtain ⟨line, member, head, whole⟩ := sound_head sound nonempty
      cases waits : viewer.waitsFirst with
      | true =>
          simp only [refreshStep, stage, head, waits, if_true] at fired
          obtain rfl := Option.some.inj fired
          refine ⟨rfl, rfl, rfl, ?_, ⟨line, member, rfl⟩, ?_⟩
          · simp [LogView.unread, stage, waits, whole]
          · change ((linesFrom view.appended (some line.node)).drop 1).length ≤ view.posts
            rw [whole, List.length_drop]
            omega
      | false =>
          simp only [refreshStep, stage, head, waits, Bool.false_eq_true, if_false] at fired
          obtain rfl := Option.some.inj fired
          refine ⟨rfl, rfl, rfl, ?_, nonempty, ?_⟩
          · simp [LogView.unread, stage, waits, whole]
          · rintro node ⟨⟩
            exact ⟨line, member, rfl⟩
  | testing i =>
      cases i with
      | none =>
          simp only [refreshStep, stage] at fired
          obtain rfl := Option.some.inj fired
          rw [stage] at placed
          refine ⟨rfl, rfl, rfl, ?_, placed.1⟩
          simp [LogView.unread, stage, linesFrom]
      | some node => exact absurd stage (quiet node)
  | advancing i =>
      simp only [refreshStep, stage] at fired
      obtain ⟨line, member, rfl, rfl⟩ := next_inv (cursor_line sound (.inl stage)) fired
      exact next_moved sound member (by simp [LogView.unread, stage])
  | jumping =>
      rw [stage] at placed
      obtain ⟨line, member, tail, alone⟩ := sound_tail sound placed
      simp only [refreshStep, stage, tail] at fired
      obtain rfl := Option.some.inj fired
      refine ⟨rfl, rfl, rfl, ?_, ⟨line, member, rfl⟩, ?_⟩
      · simp [LogView.unread, stage, alone]
      · simp [alone]
  | waiting i =>
      rw [stage] at placed
      simp only [refreshStep, stage] at fired
      obtain ⟨-, rfl⟩ := wait_inv fired
      refine ⟨rfl, rfl, rfl, ?_, placed.1⟩
      simp [LogView.unread, stage]
  | stepping i =>
      simp only [refreshStep, stage] at fired
      obtain ⟨line, member, rfl, rfl⟩ := next_inv (cursor_line sound (.inr (.inr stage))) fired
      exact next_moved sound member (by simp [LogView.unread, stage])

/-- Under a cursor the loop prints the first unread entry, and leaves or goes on. -/
theorem print_moved (viewer : Viewer α) (sound : Sound view) {node : Address}
    (stage : view.stage = .testing (some node)) :
    ∃ line ∈ view.appended, ∃ rest, node = line.node ∧
      linesFrom view.appended (some node) = line :: rest ∧
      refreshStep viewer view = some
        { view with
          printed := view.printed ++ [line]
          stage := if viewer.stops line.entry then .jumping else .advancing (some node) } := by
  have placed := sound.placed
  rw [stage] at placed
  obtain ⟨line, member, rfl⟩ := placed.2 node rfl
  obtain ⟨rest, here, -, -, content⟩ := sound_line sound member
  refine ⟨line, member, rest, rfl, here, ?_⟩
  simp only [refreshStep, stage, LogView.print, content]

theorem refresh_sound (sound : Sound view) (fired : refreshStep viewer view = some after) :
    Sound after ∧ after.appended = view.appended := by
  by_cases printing : ∃ node, view.stage = .testing (some node)
  · obtain ⟨node, stage⟩ := printing
    obtain ⟨line, member, rest, rfl, -, printed⟩ := print_moved viewer sound stage
    obtain rfl := Option.some.inj (printed.symm.trans fired)
    refine ⟨⟨sound.stores, ?_⟩, rfl⟩
    cases stops : viewer.stops line.entry with
    | true => exact List.ne_nil_of_mem member
    | false => exact ⟨line, member, rfl⟩
  · have moved := refresh_moved sound fired (not_exists.mp printing)
    refine ⟨⟨?_, moved.placed⟩, moved.appended⟩
    rw [moved.log, moved.appended]
    exact sound.stores

theorem step_sound {event : ViewEvent α} (sound : Sound view)
    (fired : viewStep viewer view event = some after) : Sound after := by
  cases event with
  | append entry =>
      obtain rfl := Option.some.inj fired
      exact append_sound sound entry
  | refresh => exact (refresh_sound sound fired).1

theorem visited_sound {garbage : α} {past : List (LogView α × ViewEvent α)}
    (trace : Trace (viewSystem viewer garbage) past view) :
    ∀ seen ∈ visited past view, Sound seen :=
  trace_visited_invariant (fun _ _ => True) Sound trace (fun _ _ => trivial)
    (start_sound viewer garbage) fun _ _ _ _ sound _ fired => step_sound sound fired

/-! ## Progress -/

/-- A thread stops at a wait only, and has read everything then. -/
theorem stuck_unread (sound : Sound view) (stuck : refreshStep viewer view = none) :
    view.unread viewer = [] := by
  have placed := sound.placed
  have waits : ∀ {stage : ViewStage}, view.wait stage = none → view.posts = 0 := by
    intro stage none
    by_contra some
    simp [LogView.wait, some] at none
  unfold refreshStep at stuck
  split at stuck
  · rename_i stage
    rw [stage] at placed
    have counted : view.posts = view.appended.length := placed
    rw [waits stuck] at counted
    simp [LogView.unread, stage, List.length_eq_zero_iff.mp counted.symm]
  · simp at stuck
  · simp at stuck
  · simp at stuck
  · rename_i i stage
    obtain ⟨line, -, rfl⟩ := cursor_line sound (.inl stage)
    simp [LogView.next] at stuck
  · simp at stuck
  · rename_i i stage
    rw [stage] at placed
    have covered := placed.2
    rw [waits stuck] at covered
    rw [LogView.unread, stage]
    exact List.eq_nil_of_length_eq_zero (Nat.le_zero.mp covered)
  · rename_i i stage
    obtain ⟨line, -, rfl⟩ := cursor_line sound (.inr (.inr stage))
    simp [LogView.next] at stuck

/-- The steps before the next wait, and one for the wait itself. -/
def stageCost (lines : List (LogLine α)) : ViewStage → Nat
  | .starting => 0
  | .seating => 2 * lines.length + 3
  | .testing i => 2 * (linesFrom lines i).length + 2
  | .advancing i => 2 * (linesFrom lines i).length + 1
  | .jumping => 1
  | .waiting _ => 0
  | .stepping i => 2 * (linesFrom lines i).length + 1

/-- A bound on the steps the thread can take without a further append. -/
def workLeft (view : LogView α) : Nat :=
  view.posts * (2 * view.appended.length + 4) + stageCost view.appended view.stage

theorem lines_from_length (lines : List (LogLine α)) (i : Option Address) :
    (linesFrom lines i).length ≤ lines.length := by
  cases i with
  | none => exact Nat.zero_le _
  | some node => exact (List.dropWhile_suffix _).length_le

theorem wait_work {stage : ViewStage} (fired : view.wait stage = some after)
    (cost : stageCost view.appended stage ≤ 2 * view.appended.length + 3) :
    workLeft after < workLeft view := by
  obtain ⟨positive, rfl⟩ := wait_inv fired
  obtain ⟨posts, some⟩ := Nat.exists_eq_add_one_of_ne_zero (Nat.ne_of_gt positive)
  simp only [workLeft, some, Nat.add_sub_cancel, Nat.add_mul posts]
  omega

theorem next_work (sound : Sound view) (member : line ∈ view.appended)
    (cost : stageCost view.appended view.stage =
      2 * (linesFrom view.appended (some line.node)).length + 1) :
    workLeft { view with stage := .testing (view.log.heap line.node).next } < workLeft view := by
  obtain ⟨rear, here, next, -⟩ := sound_line sound member
  rw [here, List.length_cons] at cost
  simp only [workLeft, cost]
  simp only [stageCost, next]
  omega

theorem refresh_work (sound : Sound view) (fired : refreshStep viewer view = some after) :
    workLeft after < workLeft view := by
  cases stage : view.stage with
  | starting =>
      simp only [refreshStep, stage] at fired
      exact wait_work fired (Nat.le_refl _)
  | seating =>
      have short := lines_from_length view.appended view.log.list.head
      simp only [refreshStep, stage] at fired
      obtain rfl := Option.some.inj fired
      simp only [workLeft, stage]
      split <;> simp only [stageCost] <;> omega
  | testing i =>
      cases i with
      | none =>
          simp only [refreshStep, stage] at fired
          obtain rfl := Option.some.inj fired
          simp only [workLeft, stage, stageCost]
          omega
      | some node =>
          simp only [refreshStep, stage] at fired
          obtain rfl := Option.some.inj fired
          simp only [workLeft, LogView.print, stage]
          split <;> simp only [stageCost] <;> omega
  | advancing i =>
      simp only [refreshStep, stage] at fired
      obtain ⟨line, member, rfl, rfl⟩ := next_inv (cursor_line sound (.inl stage)) fired
      exact next_work sound member (by rw [stage, stageCost])
  | jumping =>
      simp only [refreshStep, stage] at fired
      obtain rfl := Option.some.inj fired
      simp only [workLeft, stage, stageCost]
      omega
  | waiting i =>
      have short := lines_from_length view.appended i
      simp only [refreshStep, stage] at fired
      exact wait_work fired (by rw [stageCost]; omega)
  | stepping i =>
      simp only [refreshStep, stage] at fired
      obtain ⟨line, member, rfl, rfl⟩ := next_inv (cursor_line sound (.inr (.inr stage))) fired
      exact next_work sound member (by rw [stage, stageCost])

/-- The thread by itself comes to a wait. -/
theorem view_settles (viewer : Viewer α) (garbage : α) (sound : Sound view) :
    ∃ steps final,
      run (viewSystem viewer garbage) (List.replicate steps .refresh) view = some final ∧
        Sound final ∧ final.appended = view.appended ∧ refreshStep viewer final = none := by
  have settled : ∃ steps final,
      run (viewSystem viewer garbage) (List.replicate steps .refresh) view = some final ∧
        (Sound final ∧ final.appended = view.appended) ∧
        (viewSystem viewer garbage).step final .refresh = none := by
    refine run_until_stuck ViewEvent.refresh workLeft
      (fun later => Sound later ∧ later.appended = view.appended) ?_ ?_ ⟨sound, rfl⟩
    · rintro before after ⟨soundBefore, same⟩ fired
      obtain ⟨soundAfter, kept⟩ := refresh_sound soundBefore fired
      exact ⟨soundAfter, kept.trans same⟩
    · rintro before after ⟨soundBefore, -⟩ fired
      exact refresh_work soundBefore fired
  obtain ⟨steps, final, ran, ⟨finalSound, same⟩, stuck⟩ := settled
  exact ⟨steps, final, ran, finalSound, same, stuck⟩

end Ribabari.LogViews
