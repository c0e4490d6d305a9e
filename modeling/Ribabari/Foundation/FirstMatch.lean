import Mathlib.Data.List.Perm.Basic
import Mathlib.Data.List.Nodup
import Mathlib.Data.List.Count

/-!
# Lists searched by their first match

A pointer that a search returned denotes the first element that matched. Writing
through it is `updateFirst`, unlinking it is `List.eraseP`; both act on the same
decomposition of the list as `List.find?`.
-/

namespace Ribabari.FirstMatch

set_option autoImplicit false

variable {α β : Type*}

/-- Replace the first element that satisfies `p` by its image under `f`. -/
def updateFirst (p : α → Bool) (f : α → α) : List α → List α
  | [] => []
  | item :: rest => if p item then f item :: rest else item :: updateFirst p f rest

theorem update_first_append {p : α → Bool} {f : α → α} {before after : List α} {item : α}
    (skipped : ∀ other ∈ before, p other = false) (matched : p item = true) :
    updateFirst p f (before ++ item :: after) = before ++ f item :: after := by
  induction before with
  | nil => simp [updateFirst, matched]
  | cons head tail ih =>
      have headSkipped : p head = false := skipped head (by simp)
      simp only [List.cons_append, updateFirst, headSkipped, Bool.false_eq_true, if_false]
      rw [ih fun other member => skipped other (List.mem_cons_of_mem _ member)]

theorem erase_first_append {p : α → Bool} {before after : List α} {item : α}
    (skipped : ∀ other ∈ before, p other = false) (matched : p item = true) :
    (before ++ item :: after).eraseP p = before ++ after := by
  rw [List.eraseP_append_right _ (by simpa using skipped), List.eraseP_cons_of_pos matched]

/-- What a successful search says about the list. -/
theorem find_split {p : α → Bool} {items : List α} {item : α}
    (found : items.find? p = some item) :
    ∃ before after, items = before ++ item :: after ∧ p item = true ∧
      ∀ other ∈ before, p other = false := by
  obtain ⟨matched, before, after, split, skipped⟩ := List.find?_eq_some_iff_append.mp found
  exact ⟨before, after, split, matched, fun other member => by simpa using skipped other member⟩

/-- A column that the update does not touch is unchanged. -/
theorem map_update_first {p : α → Bool} {f : α → α} (g : α → β)
    (same : ∀ item, p item = true → g (f item) = g item) (items : List α) :
    (updateFirst p f items).map g = items.map g := by
  induction items with
  | nil => rfl
  | cons head tail ih =>
      by_cases matched : p head = true
      · simp [updateFirst, matched, same head matched]
      · simp [updateFirst, matched, ih]

theorem map_modify_same {f : α → α} (g : α → β) (same : ∀ item, g (f item) = g item)
    (items : List α) (n : Nat) : (items.modify n f).map g = items.map g := by
  apply List.ext_getElem?
  intro i
  rw [List.getElem?_map, List.getElem?_map, List.getElem?_modify]
  cases items[i]? with
  | none => rfl
  | some item => by_cases here : n = i <;> simp [here, same]

theorem mem_update_first {p : α → Bool} {f : α → α} {items : List α} {item : α}
    (member : item ∈ updateFirst p f items) :
    item ∈ items ∨ ∃ old ∈ items, p old = true ∧ f old = item := by
  induction items with
  | nil => exact .inl member
  | cons head tail ih =>
      by_cases matched : p head = true
      · rw [updateFirst, if_pos matched] at member
        rcases List.mem_cons.mp member with rfl | later
        · exact .inr ⟨head, List.mem_cons_self, matched, rfl⟩
        · exact .inl (List.mem_cons_of_mem _ later)
      · rw [updateFirst, if_neg matched] at member
        rcases List.mem_cons.mp member with rfl | later
        · exact .inl List.mem_cons_self
        · rcases ih later with old | ⟨old, oldMember, hit, image⟩
          · exact .inl (List.mem_cons_of_mem _ old)
          · exact .inr ⟨old, List.mem_cons_of_mem _ oldMember, hit, image⟩

section Keys

variable [BEq β] [LawfulBEq β] {key : α → β}

/-- Searching by a key that no two elements share finds the element itself. -/
theorem find_key {items : List α} {item : α}
    (distinct : (items.map key).Nodup) (member : item ∈ items) :
    items.find? (fun other => key other == key item) = some item := by
  induction items with
  | nil => simp at member
  | cons head tail ih =>
      simp only [List.map_cons, List.nodup_cons, List.mem_map] at distinct
      rcases List.mem_cons.mp member with rfl | inTail
      · simp
      · have different : key head ≠ key item := fun same => distinct.1 ⟨item, inTail, same.symm⟩
        rw [List.find?_cons_of_neg (by simpa using different)]
        exact ih distinct.2 inTail

theorem find_key_update_other (key : α → β) {items : List α} {f : α → α} {wanted updated : β}
    (keeps : ∀ item, key item = updated → key (f item) = updated)
    (different : wanted ≠ updated) :
    (updateFirst (fun item => key item == updated) f items).find?
        (fun item => key item == wanted) =
      items.find? (fun item => key item == wanted) := by
  induction items with
  | nil => rfl
  | cons head tail ih =>
      by_cases matched : key head = updated
      · have missNew : ¬ key (f head) = wanted := by
          rw [keeps head matched]
          exact fun same => different same.symm
        have missOld : ¬ key head = wanted := by
          rw [matched]
          exact fun same => different same.symm
        simp [updateFirst, matched, missNew, different.symm]
      · simp only [updateFirst, beq_iff_eq, matched, if_false, List.find?_cons]
        rw [ih]

theorem find_key_update_same (key : α → β) {items : List α} {f : α → α} {item : α}
    (keeps : key (f item) = key item)
    (found : items.find? (fun other => key other == key item) = some item) :
    (updateFirst (fun other => key other == key item) f items).find?
        (fun other => key other == key item) = some (f item) := by
  obtain ⟨before, after, split, matched, skipped⟩ := find_split found
  rw [split, update_first_append skipped matched, List.find?_append,
    List.find?_eq_none.mpr (by simpa using skipped)]
  simp [keeps]

end Keys

end Ribabari.FirstMatch
