import Ribabari.Foundation.TransitionSystem
import Mathlib.Data.List.Nodup

/-!
# A queue behind a gate

An item that is put while the gate is open waits until it is taken, in order. An item that
is put while the gate is closed is lost. So what has been taken or is held is what was put
at an open gate. Whether it is a prefix of everything that has been put depends on when
items have been lost, and not only on whether any has.
-/

namespace Ribabari.GatedQueue

open Ribabari.TransitionSystem

set_option autoImplicit false

variable {Item : Type*}

structure Gated (Item : Type*) where
  offered : List Item
  taken : List Item
  held : List Item
  isOpen : Bool

/-- After a `put` or a `gate` the gate is open or closed as it says. -/
inductive GateEvent (Item : Type*) where
  | put (item : Item) (isOpen : Bool)
  | take
  | gate (isOpen : Bool)

def gateStep (queue : Gated Item) : GateEvent Item → Option (Gated Item)
  | .put item isOpen => some
      { offered := queue.offered ++ [item]
        taken := queue.taken
        held := if queue.isOpen then queue.held ++ [item] else queue.held
        isOpen := isOpen }
  | .take =>
      match queue.held with
      | [] => none
      | item :: rest => some
          { queue with
            taken := queue.taken ++ [item]
            held := rest }
  | .gate isOpen => some { queue with isOpen := isOpen }

def gatedQueue (isOpen : Bool) : System (Gated Item) (GateEvent Item) where
  start :=
    { offered := []
      taken := []
      held := []
      isOpen := isOpen }
  step := gateStep

def putItem : GateEvent Item → Option Item
  | .put item _ => some item
  | .take => none
  | .gate _ => none

/-- The items of a run that were put while the gate was open. -/
def accepted (past : List (Gated Item × GateEvent Item)) : List Item :=
  (past.filter fun entry => entry.1.isOpen).filterMap fun entry => putItem entry.2

/-- Nothing has been put while the gate was closed. -/
def Lossless (past : List (Gated Item × GateEvent Item)) : Prop :=
  ∀ entry ∈ past, (putItem entry.2).isSome = true → entry.1.isOpen = true

/-- Nothing is taken once something has been lost. -/
def TakesLossless (past : List (Gated Item × GateEvent Item)) : Prop :=
  ∀ before entry, before ++ [entry] <+: past → entry.2 = .take → Lossless before

section Steps

variable {queue after : Gated Item} {event : GateEvent Item}

theorem take_inv (fired : gateStep queue .take = some after) :
    ∃ item rest, queue.held = item :: rest ∧
      after = { queue with taken := queue.taken ++ [item], held := rest } := by
  cases held : queue.held with
  | nil => simp [gateStep, held] at fired
  | cons item rest =>
      refine ⟨item, rest, rfl, ?_⟩
      simpa [gateStep, held] using fired.symm

theorem step_offered (fired : gateStep queue event = some after) :
    after.offered = queue.offered ++ (putItem event).toList := by
  cases event with
  | put item isOpen =>
      obtain rfl := Option.some.inj fired
      rfl
  | take =>
      obtain ⟨item, rest, -, rfl⟩ := take_inv fired
      simp [putItem]
  | gate isOpen =>
      obtain rfl := Option.some.inj fired
      simp [putItem]

theorem step_accepts (fired : gateStep queue event = some after) :
    after.taken ++ after.held =
      queue.taken ++ queue.held ++ if queue.isOpen then (putItem event).toList else [] := by
  cases event with
  | put item isOpen =>
      obtain rfl := Option.some.inj fired
      cases queue.isOpen <;> simp [putItem]
  | take =>
      obtain ⟨item, rest, held, rfl⟩ := take_inv fired
      simp [putItem, held]
  | gate isOpen =>
      obtain rfl := Option.some.inj fired
      simp [putItem]

end Steps

variable {isOpen : Bool} {past : List (Gated Item × GateEvent Item)} {state : Gated Item}

theorem trace_offered (trace : Trace (gatedQueue isOpen) past state) :
    state.offered = past.filterMap fun entry => putItem entry.2 := by
  induction trace with
  | start => rfl
  | @next past before after event prior fired ih =>
      rw [step_offered fired, ih, List.filterMap_append]
      cases put : putItem event <;> simp [put]

theorem accepted_snoc (past : List (Gated Item × GateEvent Item))
    (entry : Gated Item × GateEvent Item) :
    accepted (past ++ [entry]) =
      accepted past ++ if entry.1.isOpen then (putItem entry.2).toList else [] := by
  simp only [accepted, List.filter_append, List.filterMap_append]
  congr 1
  cases gate : entry.1.isOpen <;> cases put : putItem entry.2 <;> simp [gate, put]

/-- What has been taken or is held is what was put at an open gate. -/
theorem trace_accepted (trace : Trace (gatedQueue isOpen) past state) :
    state.taken ++ state.held = accepted past := by
  induction trace with
  | start => rfl
  | next prior fired ih => rw [step_accepts fired, ih, accepted_snoc]

/-- The kept items are all accepted exactly when each of them was put at an open gate. -/
theorem accepted_filter_iff (keep : Item → Bool) (past : List (Gated Item × GateEvent Item)) :
    (accepted past).filter keep = (past.filterMap fun entry => putItem entry.2).filter keep ↔
      ∀ entry ∈ past, ∀ item, putItem entry.2 = some item → keep item = true →
        entry.1.isOpen = true := by
  induction past with
  | nil => simp [accepted]
  | cons entry past ih =>
      have fewer : ((accepted past).filter keep).length ≤
          ((past.filterMap fun entry => putItem entry.2).filter keep).length :=
        ((List.filter_sublist.filterMap _).filter _).length_le
      rw [List.forall_mem_cons, ← ih]
      cases put : putItem entry.2 with
      | none => cases gate : entry.1.isOpen <;> simp [accepted, gate, put]
      | some item =>
          cases kept : keep item with
          | false => cases gate : entry.1.isOpen <;> simp [accepted, gate, put, kept]
          | true =>
              cases gate : entry.1.isOpen with
              | true => simp [accepted, gate, put, kept]
              | false =>
                  -- The lost item makes the accepted ones too few.
                  have lost : accepted (entry :: past) = accepted past := by
                    simp [accepted, gate]
                  have first : (entry :: past).filterMap (fun entry => putItem entry.2) =
                      item :: past.filterMap fun entry => putItem entry.2 :=
                    List.filterMap_cons_some put
                  rw [lost, first, List.filter_cons_of_pos kept]
                  constructor
                  · intro same
                    rw [same, List.length_cons] at fewer
                    exact absurd fewer (Nat.not_succ_le_self _)
                  · intro each
                    simp [kept] at each

/-! ## Order -/

theorem lossless_snoc {entry : Gated Item × GateEvent Item} :
    Lossless (past ++ [entry]) ↔
      Lossless past ∧ ((putItem entry.2).isSome = true → entry.1.isOpen = true) := by
  simp [Lossless, or_imp, forall_and]

theorem takes_lossless_snoc {entry : Gated Item × GateEvent Item} :
    TakesLossless (past ++ [entry]) ↔
      TakesLossless past ∧ (entry.2 = .take → Lossless past) := by
  constructor
  · intro takes
    exact ⟨fun before other first => takes before other (first.trans (List.prefix_append _ _)),
      takes past entry List.prefix_rfl⟩
  · rintro ⟨takes, last⟩ before other first isTake
    rcases List.prefix_concat_iff.mp first with whole | earlier
    · obtain ⟨rfl, same⟩ := List.append_inj' whole rfl
      obtain rfl := List.singleton_inj.mp same
      exact last isTake
    · exact takes before other earlier isTake

theorem lossless_accepts (lossless : Lossless past) :
    accepted past = past.filterMap fun entry => putItem entry.2 := by
  have all := (accepted_filter_iff (fun _ => true) past).mpr
    fun entry member item put _ => lossless entry member (by rw [put]; rfl)
  simpa using all

theorem lossless_offered (trace : Trace (gatedQueue isOpen) past state)
    (lossless : Lossless past) : state.taken ++ state.held = state.offered := by
  rw [trace_accepted trace, lossless_accepts lossless, trace_offered trace]

/-- Behind the first lost item: the items in front of it have been taken. -/
def PastLoss (queue : Gated Item) : Prop :=
  ∃ front lost rest, queue.offered = front ++ lost :: rest ∧
    front.length ≤ queue.taken.length ∧ lost ∉ queue.taken ∧ lost ∉ queue.held

theorem step_past_loss {queue after : Gated Item} {event : GateEvent Item}
    (loss : PastLoss queue) (fired : gateStep queue event = some after)
    (distinct : after.offered.Nodup) : PastLoss after := by
  obtain ⟨front, lost, rest, offered, passed, untaken, unheld⟩ := loss
  cases event with
  | put item isOpen =>
      obtain rfl := Option.some.inj fired
      have new : lost ≠ item := by
        rintro rfl
        simp [offered, List.nodup_append] at distinct
      refine ⟨front, lost, rest ++ [item], by simp [offered], passed, untaken, ?_⟩
      dsimp only
      split <;> simp [unheld, new]
  | take =>
      obtain ⟨item, others, held, rfl⟩ := take_inv fired
      rw [held, List.mem_cons, not_or] at unheld
      refine ⟨front, lost, rest, offered, ?_, ?_, unheld.2⟩
      · rw [List.length_append]
        exact Nat.le_add_right_of_le passed
      · simp [untaken, unheld.1]
  | gate isOpen =>
      obtain rfl := Option.some.inj fired
      exact ⟨front, lost, rest, offered, passed, untaken, unheld⟩

/-- Once an item has been lost, whatever is taken has overtaken it. -/
theorem take_past_loss {queue after : Gated Item} (loss : PastLoss queue)
    (fired : gateStep queue .take = some after) : ¬after.taken <+: after.offered := by
  obtain ⟨front, lost, rest, offered, passed, untaken, unheld⟩ := loss
  obtain ⟨item, others, held, rfl⟩ := take_inv fired
  rw [held, List.mem_cons, not_or] at unheld
  intro inOrder
  have upToLost : front ++ [lost] <+: queue.taken ++ [item] := by
    apply List.prefix_of_prefix_length_le _ inOrder
    · rw [List.length_append, List.length_append]
      exact Nat.succ_le_succ passed
    · rw [offered, List.append_cons front lost rest]
      exact List.prefix_append _ _
  have member : lost ∈ queue.taken ++ [item] := upToLost.subset (by simp)
  simp [untaken, unheld.1] at member

/-- A gate that closes on an empty queue loses its first item behind everything taken. -/
theorem trace_past_loss (trace : Trace (gatedQueue isOpen) past state)
    (drained : ∀ entry ∈ past, entry.1.isOpen = false → entry.1.held = [])
    (distinct : state.offered.Nodup) (lossy : ¬Lossless past) : PastLoss state := by
  induction trace with
  | start => exact absurd (by simp [Lossless]) lossy
  | @next past before after event prior fired ih =>
      have offered := step_offered fired
      have earlier : before.offered.Nodup := by
        rw [offered] at distinct
        exact distinct.of_append_left
      by_cases lossless : Lossless past
      · -- The first loss is at this step.
        obtain ⟨put, closed⟩ : (putItem event).isSome = true ∧ before.isOpen = false := by
          rw [lossless_snoc] at lossy
          simpa [lossless] using lossy
        have empty : before.held = [] := drained (before, event) (by simp) closed
        have all : before.taken = before.offered := by
          have whole := lossless_offered prior lossless
          rwa [empty, List.append_nil] at whole
        cases event with
        | put item isOpen =>
            obtain rfl := Option.some.inj fired
            have new : item ∉ before.offered := by
              rw [List.nodup_append] at distinct
              exact fun old => distinct.2.2 item old item (by simp) rfl
            refine ⟨before.offered, item, [], rfl, ?_, ?_, ?_⟩
            · exact Nat.le_of_eq (congrArg List.length all.symm)
            · rw [all]
              exact new
            · simp [closed, empty]
        | take => simp [putItem] at put
        | gate isOpen => simp [putItem] at put
      · exact step_past_loss
          (ih (fun entry member => drained entry (List.mem_append_left _ member)) earlier lossless)
          fired distinct

/-- Items are taken in the order in which all of them were put, exactly when nothing is taken
once something has been lost. -/
theorem taken_in_order_iff (trace : Trace (gatedQueue isOpen) past state)
    (drained : ∀ entry ∈ past, entry.1.isOpen = false → entry.1.held = [])
    (distinct : state.offered.Nodup) :
    (∀ seen ∈ visited past state, seen.taken <+: seen.offered) ↔ TakesLossless past := by
  induction trace with
  | start =>
      constructor
      · intro _ before entry first
        simp at first
      · intro _ seen member
        obtain rfl : seen = _ := by simpa [visited] using member
        exact List.nil_prefix
  | @next past before after event prior fired ih =>
      have offered := step_offered fired
      have earlier : before.offered.Nodup := by
        rw [offered] at distinct
        exact distinct.of_append_left
      have drainedBefore : ∀ entry ∈ past, entry.1.isOpen = false → entry.1.held = [] :=
        fun entry member => drained entry (List.mem_append_left _ member)
      have visits : visited (past ++ [(before, event)]) after = visited past before ++ [after] := by
        simp [visited]
      rw [visits, List.forall_mem_append, List.forall_mem_singleton, takes_lossless_snoc,
        ih drainedBefore earlier]
      refine and_congr_right fun takes => ?_
      have inOrder : before.taken <+: before.offered :=
        (ih drainedBefore earlier).mpr takes before (last_visited _ _)
      constructor
      · rintro afterInOrder rfl
        by_contra lossy
        exact take_past_loss (trace_past_loss prior drainedBefore earlier lossy) fired afterInOrder
      · intro lossless
        cases event with
        | put item isOpen =>
            obtain rfl := Option.some.inj fired
            exact inOrder.trans (List.prefix_append _ _)
        | take =>
            have whole := lossless_offered prior (lossless rfl)
            obtain ⟨item, rest, held, rfl⟩ := take_inv fired
            dsimp only
            rw [← whole, held, List.append_cons before.taken item rest]
            exact List.prefix_append _ _
        | gate isOpen =>
            obtain rfl := Option.some.inj fired
            exact inOrder

end Ribabari.GatedQueue
