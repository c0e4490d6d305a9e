import Ribabari.Foundation.FirstMatch

/-!
# Reference-counted tables

A table of entries, searched by a key, with a count in each entry. The table is
accounted for by a function from keys to numbers of holders: a key is present
exactly when somebody holds it, and its entry counts the holders. Retaining and
releasing a key adjust the function at that key alone.
-/

namespace Ribabari.ReferenceCount

open Ribabari.FirstMatch

set_option autoImplicit false

variable {Entry Key : Type*}

structure Counted (ident : Entry → Key) (count : Entry → Int) (table : List Entry)
    (holders : Key → Nat) : Prop where
  distinct : (table.map ident).Nodup
  counts : ∀ entry ∈ table, count entry = holders (ident entry)
  held : ∀ entry ∈ table, 0 < holders (ident entry)
  present : ∀ key, 0 < holders key → key ∈ table.map ident

/-- The table with an entry for the key, the fresh one when the search finds none. -/
def ensured [DecidableEq Key] (ident : Entry → Key) (key : Key) (fresh : Entry) (table : List Entry) :
    List Entry :=
  match table.find? fun entry => ident entry == key with
  | none => table ++ [fresh]
  | some _ => table

variable {ident : Entry → Key} {count : Entry → Int} {table : List Entry}
  {holders holders' : Key → Nat}

namespace Counted

theorem present_iff (counted : Counted ident count table holders) (key : Key) :
    (∃ entry ∈ table, ident entry = key) ↔ 0 < holders key := by
  constructor
  · rintro ⟨entry, member, rfl⟩
    exact counted.held entry member
  · intro held
    simpa using counted.present key held

section Entries

variable {before after : List Entry} {entry stored : Entry}

/-- In a decomposition around an entry, the entry's key occurs nowhere else. -/
theorem elsewhere_differs (counted : Counted ident count (before ++ entry :: after) holders) :
    ∀ other ∈ before ++ after, ident other ≠ ident entry := by
  have distinct := counted.distinct
  rw [List.map_append, List.map_cons, List.nodup_middle, List.nodup_cons,
    ← List.map_append] at distinct
  exact fun other member same => distinct.1 (List.mem_map.mpr ⟨other, member, same⟩)

theorem replace (counted : Counted ident count (before ++ entry :: after) holders)
    (same : ident stored = ident entry) (counts : count stored = holders' (ident entry))
    (held : 0 < holders' (ident entry))
    (others : ∀ key, key ≠ ident entry → holders' key = holders key) :
    Counted ident count (before ++ stored :: after) holders' := by
  have keys : (before ++ stored :: after).map ident = (before ++ entry :: after).map ident := by
    simp [same]
  have differs := counted.elsewhere_differs
  have old : ∀ other ∈ before ++ stored :: after, other = stored ∨
      (other ∈ before ++ entry :: after ∧ ident other ≠ ident entry) := by
    intro other member
    rcases List.mem_append.mp member with early | late
    · exact .inr ⟨List.mem_append_left _ early, differs other (List.mem_append_left _ early)⟩
    · rcases List.mem_cons.mp late with rfl | late
      · exact .inl rfl
      · exact .inr ⟨by simp [late], differs other (List.mem_append_right _ late)⟩
  refine
    { distinct := keys ▸ counted.distinct
      counts := ?_
      held := ?_
      present := ?_ }
  · intro other member
    rcases old other member with rfl | ⟨member, different⟩
    · rw [same, counts]
    · rw [others _ different, counted.counts other member]
  · intro other member
    rcases old other member with rfl | ⟨member, different⟩
    · rwa [same]
    · rw [others _ different]
      exact counted.held other member
  · intro key positive
    rw [keys]
    by_cases here : key = ident entry
    · simp [here]
    · exact counted.present key (others key here ▸ positive)

theorem insert (counted : Counted ident count table holders)
    (absent : holders (ident stored) = 0) (counts : count stored = holders' (ident stored))
    (held : 0 < holders' (ident stored))
    (others : ∀ key, key ≠ ident stored → holders' key = holders key) :
    Counted ident count (table ++ [stored]) holders' := by
  have differs : ∀ other ∈ table, ident other ≠ ident stored := by
    intro other member same
    have positive := counted.held other member
    rw [same, absent] at positive
    exact Nat.lt_irrefl _ positive
  refine
    { distinct := ?_
      counts := ?_
      held := ?_
      present := ?_ }
  · rw [List.map_append, List.nodup_append]
    refine ⟨counted.distinct, by simp, ?_⟩
    intro key member last same
    obtain ⟨other, listed, rfl⟩ := List.mem_map.mp member
    rw [List.map_singleton, List.mem_singleton] at same
    exact same ▸ differs other listed
  · intro other member
    rcases List.mem_append.mp member with old | new
    · rw [others _ (differs other old), counted.counts other old]
    · rw [List.mem_singleton.mp new, counts]
  · intro other member
    rcases List.mem_append.mp member with old | new
    · rw [others _ (differs other old)]
      exact counted.held other old
    · rwa [List.mem_singleton.mp new]
  · intro key positive
    by_cases here : key = ident stored
    · simp [here]
    · rw [List.map_append]
      exact List.mem_append_left _ (counted.present key (others key here ▸ positive))

theorem remove (counted : Counted ident count (before ++ entry :: after) holders)
    (gone : holders' (ident entry) = 0)
    (others : ∀ key, key ≠ ident entry → holders' key = holders key) :
    Counted ident count (before ++ after) holders' := by
  have differs := counted.elsewhere_differs
  have kept : (before ++ after).Sublist (before ++ entry :: after) :=
    (List.Sublist.refl before).append (List.sublist_cons_self entry after)
  refine
    { distinct := counted.distinct.sublist (kept.map ident)
      counts := ?_
      held := ?_
      present := ?_ }
  · intro other member
    rw [others _ (differs other member)]
    exact counted.counts other (kept.subset member)
  · intro other member
    rw [others _ (differs other member)]
    exact counted.held other (kept.subset member)
  · intro key positive
    have here : key ≠ ident entry := by
      rintro rfl
      exact absurd positive (by omega)
    have member := counted.present key (others key here ▸ positive)
    simp only [List.map_append, List.map_cons, List.mem_append, List.mem_cons] at member ⊢
    tauto

end Entries

variable [DecidableEq Key]

/-- A key that nobody holds is not found, one that somebody holds is. -/
theorem find_eq_none_iff (counted : Counted ident count table holders) (key : Key) :
    table.find? (fun entry => ident entry == key) = none ↔ holders key = 0 := by
  have present := counted.present_iff key
  rw [List.find?_eq_none]
  constructor
  · intro missing
    by_contra positive
    obtain ⟨entry, member, same⟩ := present.mpr (by omega)
    exact missing entry member (by simpa using same)
  · intro zero entry member same
    have positive := present.mp ⟨entry, member, by simpa using same⟩
    omega

/-- Open the key when it is absent, then count one holder more. -/
theorem retain (counted : Counted ident count table holders) {key : Key} (fresh : Entry)
    (up : Entry → Entry) (freshIdent : ident fresh = key) (freshCount : count fresh = 0)
    (keeps : ∀ entry, ident (up entry) = ident entry)
    (raises : ∀ entry, count (up entry) = count entry + 1) :
    Counted ident count
      (updateFirst (fun entry => ident entry == key) up (ensured ident key fresh table))
      (fun other => holders other + if other = key then 1 else 0) := by
  cases found : table.find? fun entry => ident entry == key with
  | none =>
      have absent := (counted.find_eq_none_iff key).mp found
      have missing := List.find?_eq_none.mp found
      have update : updateFirst (fun entry => ident entry == key) up (table ++ [fresh]) =
          table ++ [up fresh] :=
        update_first_append (fun other member => by simpa using missing other member)
          (by simpa using freshIdent)
      rw [ensured, found, update]
      have named : ident (up fresh) = key := (keeps fresh).trans freshIdent
      apply counted.insert
      · rw [named, absent]
      · rw [named, raises, freshCount, absent]
        simp
      · simp [named]
      · intro other different
        rw [named] at different
        simp [different]
  | some entry =>
      obtain ⟨before, after, rfl, matched, skipped⟩ := find_split found
      rw [ensured, found]
      dsimp only
      rw [update_first_append skipped matched]
      obtain rfl : ident entry = key := by simpa using matched
      have counts := counted.counts entry (by simp)
      apply counted.replace (keeps entry)
      · rw [raises, counts]
        simp
      · simp
      · intro other different
        simp [different]

/-- Count one holder less, and drop the entry with its last holder. -/
theorem release (counted : Counted ident count table holders) {entry : Entry} {key : Key}
    (down : Entry → Entry)
    (found : table.find? (fun other => ident other == key) = some entry)
    (keeps : ∀ entry, ident (down entry) = ident entry)
    (lowers : ∀ entry, count (down entry) = count entry - 1) :
    Counted ident count
      (if count entry - 1 = 0 then table.eraseP fun other => ident other == key
      else updateFirst (fun other => ident other == key) down table)
      (fun other => holders other - if other = key then 1 else 0) := by
  obtain ⟨before, after, rfl, matched, skipped⟩ := find_split found
  obtain rfl : ident entry = key := by simpa using matched
  have counts := counted.counts entry (by simp)
  split
  case isTrue last =>
      rw [erase_first_append skipped matched]
      apply counted.remove
      · have one : holders (ident entry) = 1 := by omega
        simp [one]
      · intro other different
        simp [different]
  case isFalse more =>
      have positive := counted.held entry (by simp)
      rw [update_first_append skipped matched]
      apply counted.replace (keeps entry)
      · rw [lowers, counts]
        simp only [if_true]
        omega
      · simp only [if_true]
        omega
      · intro other different
        simp [different]

end Counted

section Released

variable [DecidableEq Key]

/-- What a holder of the keys leaves of an entry: one holder less, and nothing of an entry
that it was the only holder of. -/
def released (ident : Entry → Key) (count : Entry → Int) (down : Entry → Entry) (keys : List Key)
    (entry : Entry) : Option Entry :=
  if ident entry ∈ keys then if count entry - 1 = 0 then none else some (down entry)
  else some entry

variable {down : Entry → Entry} {key : Key} {keys : List Key}

theorem released_elsewhere {entries : List Entry}
    (differs : ∀ entry ∈ entries, ident entry ∉ keys) :
    entries.filterMap (released ident count down keys) = entries := by
  have kept : ∀ entry ∈ entries, released ident count down keys entry = some entry :=
    fun entry member => if_neg (differs entry member)
  rw [List.filterMap_congr kept, List.filterMap_some]

/-- Releasing one key of a table without duplicates acts on each entry by itself. -/
theorem release_table (distinct : (table.map ident).Nodup) {entry : Entry}
    (found : table.find? (fun other => ident other == key) = some entry) :
    (if count entry - 1 = 0 then table.eraseP fun other => ident other == key
      else updateFirst (fun other => ident other == key) down table) =
      table.filterMap (released ident count down [key]) := by
  obtain ⟨before, after, rfl, matched, skipped⟩ := find_split found
  obtain rfl : ident entry = key := by simpa using matched
  rw [List.map_append, List.map_cons, List.nodup_middle, List.nodup_cons,
    ← List.map_append] at distinct
  have differs : ∀ other ∈ before ++ after, ident other ∉ [ident entry] := by
    intro other member same
    rw [List.mem_singleton] at same
    exact distinct.1 (List.mem_map.mpr ⟨other, member, same⟩)
  have front : before.filterMap (released ident count down [ident entry]) = before :=
    released_elsewhere fun other member => differs other (List.mem_append_left _ member)
  have rear : after.filterMap (released ident count down [ident entry]) = after :=
    released_elsewhere fun other member => differs other (List.mem_append_right _ member)
  rw [erase_first_append skipped matched, update_first_append skipped matched,
    List.filterMap_append, List.filterMap_cons, front, rear]
  by_cases last : count entry - 1 = 0 <;> simp [released, last]

/-- One key after the other is all of the keys at once. -/
theorem released_all (keeps : ∀ entry, ident (down entry) = ident entry) (fresh : key ∉ keys) :
    (table.filterMap (released ident count down [key])).filterMap (released ident count down keys) =
      table.filterMap (released ident count down (key :: keys)) := by
  rw [List.filterMap_filterMap]
  apply List.filterMap_congr
  intro entry _
  by_cases here : ident entry = key
  · by_cases last : count entry - 1 = 0 <;> simp [released, here, last, keeps, fresh]
  · simp [released, here]

variable (count keys) in
theorem released_distinct (keeps : ∀ entry, ident (down entry) = ident entry)
    (distinct : (table.map ident).Nodup) :
    ((table.filterMap (released ident count down keys)).map ident).Nodup := by
  let stays (entry : Entry) : Bool := !decide (ident entry ∈ keys ∧ count entry - 1 = 0)
  have column : ∀ entry ∈ table, (released ident count down keys entry).map ident =
      if stays entry then some (ident entry) else none := by
    intro entry _
    by_cases member : ident entry ∈ keys <;> by_cases last : count entry - 1 = 0 <;>
      simp [stays, released, member, last, keeps]
  have kept : (table.filterMap (released ident count down keys)).map ident =
      (table.filter stays).map ident := by
    rw [List.map_filterMap, List.filterMap_congr column, ← List.filterMap_filter,
      List.filterMap_eq_map']
  rw [kept]
  exact distinct.sublist (List.filter_sublist.map ident)

end Released

end Ribabari.ReferenceCount
