import Mathlib.Algebra.Order.BigOperators.Group.List
import Mathlib.Algebra.Order.Ring.Int

/-!
# The shortest prefix that meets a demand

Items with a weight are taken from the front of a list until their weights reach a
bound. The prefix taken is the only one that reaches the bound, or is everything, while
nothing shorter does.
-/

namespace Ribabari.DemandPrefix

set_option autoImplicit false

variable {α : Type*} (weight : α → Int)

def total (items : List α) : Int := (items.map weight).sum

@[simp] theorem total_nil : total weight [] = 0 := rfl

@[simp] theorem total_cons (item : α) (items : List α) :
    total weight (item :: items) = weight item + total weight items :=
  List.sum_cons

@[simp] theorem total_append (items others : List α) :
    total weight (items ++ others) = total weight items + total weight others := by
  simp [total]

/-- `before` is the shortest prefix of `before ++ after` that reaches the bound, or all
of it when none does. -/
structure Demand (bound : Int) (before after : List α) : Prop where
  shortest : ∀ part rest, before = part ++ rest → rest ≠ [] → total weight part < bound
  reached : bound ≤ total weight before ∨ after = []

/-- What is taken for a demand, and what is left. -/
def takeDemand : Int → List α → List α × List α
  | _, [] => ([], [])
  | bound, item :: items =>
      if bound ≤ 0 then ([], item :: items)
      else
        let rest := takeDemand (bound - weight item) items
        (item :: rest.1, rest.2)

theorem take_demand_met {bound : Int} (met : bound ≤ 0) (items : List α) :
    takeDemand weight bound items = ([], items) := by
  cases items with
  | nil => rfl
  | cons item items => rw [takeDemand, if_pos met]

theorem take_demand_cons {bound : Int} (unmet : 0 < bound) (item : α) (items : List α) :
    takeDemand weight bound (item :: items) =
      (item :: (takeDemand weight (bound - weight item) items).1,
        (takeDemand weight (bound - weight item) items).2) := by
  rw [takeDemand, if_neg (Int.not_le.mpr unmet)]

theorem take_demand_parts (bound : Int) (items : List α) :
    (takeDemand weight bound items).1 ++ (takeDemand weight bound items).2 = items := by
  induction items generalizing bound with
  | nil => rfl
  | cons item items ih =>
      rw [takeDemand]
      split
      · rfl
      · rw [List.cons_append, ih]

theorem take_demand_is_demand (bound : Int) (items : List α) :
    Demand weight bound (takeDemand weight bound items).1 (takeDemand weight bound items).2 := by
  induction items generalizing bound with
  | nil =>
      refine ⟨fun part rest split more => ?_, .inr rfl⟩
      exact absurd (List.append_eq_nil_iff.mp split.symm).2 more
  | cons item items ih =>
      by_cases met : bound ≤ 0
      · rw [take_demand_met weight met]
        refine ⟨fun part rest split more => ?_, .inl met⟩
        exact absurd (List.append_eq_nil_iff.mp split.symm).2 more
      · rw [take_demand_cons weight (Int.not_le.mp met)]
        have later := ih (bound - weight item)
        constructor
        · intro part rest split more
          cases part with
          | nil => exact Int.not_le.mp met
          | cons first part =>
              obtain ⟨rfl, tail⟩ := List.cons.inj split
              have shorter := later.shortest part rest tail more
              rw [total_cons]
              omega
        · refine later.reached.imp (fun reached => ?_) id
          rw [total_cons]
          omega

/-- No two prefixes of one list meet the same demand. -/
theorem demand_unique {bound : Int} {before after before' after' : List α}
    (demand : Demand weight bound before after) (demand' : Demand weight bound before' after')
    (same : before ++ after = before' ++ after') : before = before' ∧ after = after' := by
  rcases List.append_eq_append_iff.mp same with ⟨rest, longer, left⟩ | ⟨rest, longer, left⟩
  · cases rest with
    | nil => simp_all
    | cons item rest =>
        have short := demand'.shortest before (item :: rest) longer (by simp)
        rcases demand.reached with reached | nothing
        · omega
        · simp [nothing] at left
  · cases rest with
    | nil => simp_all
    | cons item rest =>
        have short := demand.shortest before' (item :: rest) longer (by simp)
        rcases demand'.reached with reached | nothing
        · omega
        · simp [nothing] at left

/-- Nothing is taken beyond items that meet the demand. -/
theorem take_demand_within {bound : Int} (items others : List α)
    (met : bound ≤ total weight items) :
    takeDemand weight bound (items ++ others) =
      ((takeDemand weight bound items).1, (takeDemand weight bound items).2 ++ others) := by
  induction items generalizing bound with
  | nil =>
      rw [List.nil_append, take_demand_met weight met]
      rfl
  | cons item items ih =>
      rw [List.cons_append, takeDemand, takeDemand]
      split
      · rfl
      · rw [total_cons] at met
        rw [ih (by omega)]

/-- Items that do not reach the bound in any part are all taken. -/
theorem take_demand_beyond (nonneg : ∀ item, 0 ≤ weight item) {bound : Int}
    (items others : List α) (unmet : total weight items < bound) :
    takeDemand weight bound (items ++ others) =
      (items ++ (takeDemand weight (bound - total weight items) others).1,
        (takeDemand weight (bound - total weight items) others).2) := by
  induction items generalizing bound with
  | nil => simp
  | cons item items ih =>
      have rest : 0 ≤ total weight items :=
        List.sum_nonneg (by simpa using fun other _ => nonneg other)
      have here := nonneg item
      rw [total_cons] at unmet ⊢
      rw [List.cons_append, take_demand_cons weight (by omega), ih (by omega), Int.sub_sub]
      rfl

/-- The weight taken exceeds the demand by less than the heaviest item. -/
theorem demand_overshoot {bound heaviest : Int} {before after : List α} (positive : 0 < bound)
    (light : ∀ item, weight item ≤ heaviest) (large : 0 ≤ heaviest)
    (demand : Demand weight bound before after) : total weight before < bound + heaviest := by
  rcases List.eq_nil_or_concat before with rfl | ⟨part, last, rfl⟩
  · rw [total_nil]
    omega
  · have short := demand.shortest part [last] (by simp) (by simp)
    have lastLight := light last
    rw [List.concat_eq_append, total_append, total_cons, total_nil]
    omega

end Ribabari.DemandPrefix
