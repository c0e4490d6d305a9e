import Ribabari.Memory.PagedCode

/-!
# Used pages

Only the cpu sets a used bit, in the segment of the process it runs. A segment is added
with all its bits clear, and the swap pass clears more of them.
-/

namespace Ribabari.UsedPages

open Ribabari.FirstMatch Ribabari.ProcessRecords Ribabari.SegmentMemory Ribabari.PagedCode

set_option autoImplicit false

/-- The segment has a used page. -/
def Touched (seg : Segment) : Prop := ∃ page ∈ seg.pageTable, page.used = true

instance (seg : Segment) : Decidable (Touched seg) :=
  inferInstanceAs (Decidable (∃ page ∈ seg.pageTable, page.used = true))

/-! ## A new segment -/

theorem page_modified (seg : Segment) (number n : Nat) (f : Page → Page) :
    (seg.modifyPage number f).pageTable[n]? =
      seg.pageTable[n]?.map fun page => if number = n then f page else page := by
  rw [Segment.modifyPage, Segment.withPages, List.getElem?_modify]
  by_cases here : number = n <;> simp [here]

/-- By induction on the cleared indices: a page is clear when it was, or when one of them
is on it. -/
theorem cleared_page (numbers : List Nat) (seg : Segment) {n : Nat}
    (target : (∀ page ∈ seg.pageTable[n]?, page.used = false) ∨ n ∈ numbers.map pageNumber) :
    ∀ page ∈ (numbers.foldl
      (fun seg i => seg.modifyPage (pageNumber i) Page.clearUsed) seg).pageTable[n]?,
      page.used = false := by
  induction numbers generalizing seg with
  | nil => exact target.resolve_right List.not_mem_nil
  | cons number numbers ih =>
      apply ih
      by_cases here : pageNumber number = n
      · left
        intro page found
        rw [page_modified, Option.mem_def, Option.map_eq_some_iff] at found
        obtain ⟨old, -, rfl⟩ := found
        rw [if_pos here]
        rfl
      · rcases target with clear | cleared
        · left
          intro page found
          rw [page_modified, Option.mem_def, Option.map_eq_some_iff] at found
          obtain ⟨old, present, rfl⟩ := found
          rw [if_neg here]
          exact clear old present
        · right
          rw [List.map_cons, List.mem_cons] at cleared
          exact cleared.resolve_left fun same => here same.symm

theorem written_used (entries : List (Instr × Nat)) (seg : Segment) :
    (entries.foldl writeCell seg).pageTable.map Page.used = seg.pageTable.map Page.used := by
  induction entries generalizing seg with
  | nil => rfl
  | cons entry entries ih =>
      rw [List.foldl_cons, ih]
      exact map_modify_same Page.used (f := fun page => page.store (pageOffset entry.2) entry.1)
        (fun _ => rfl) seg.pageTable (pageNumber entry.2)

/-- The loop clears the page of every instruction, and every page has one. -/
theorem populate_untouched (req : MemoryRequest) (fresh : Nat → Page) :
    ¬Touched (segmentPopulate (segmentCreate req fresh) req.code) := by
  rintro ⟨page, member, used⟩
  let cleared := (List.range req.code.length).foldl
    (fun seg i => seg.modifyPage (pageNumber i) Page.clearUsed) (segmentCreate req fresh)
  have bits : (segmentPopulate (segmentCreate req fresh) req.code).pageTable.map Page.used =
      cleared.pageTable.map Page.used := written_used req.code.zipIdx cleared
  have listed := List.mem_map_of_mem (f := Page.used) member
  rw [bits] at listed
  obtain ⟨kept, keptMember, same⟩ := List.mem_map.mp listed
  obtain ⟨n, found⟩ := List.mem_iff_getElem?.mp keptMember
  have clear : kept.used = false := by
    by_cases allocated : n < (req.proc.codeLen + 255) / instructionsPerPage
    · apply cleared_page (List.range req.code.length) (segmentCreate req fresh) (.inr ?_) kept found
      have counted := req.counted
      unfold instructionsPerPage at allocated
      refine List.mem_map.mpr ⟨256 * n, List.mem_range.mpr (by omega), ?_⟩
      unfold pageNumber instructionsPerPage
      omega
    · apply cleared_page (List.range req.code.length) (segmentCreate req fresh) (.inl ?_) kept found
      intro page created
      rw [segmentCreate, List.getElem?_eq_none (by simpa using Nat.not_lt.mp allocated)] at created
      simp at created
  rw [clear, used] at same
  exact Bool.false_ne_true same

/-! ## The operations -/

theorem swap_pages_used {size : Int} {pages : List Page} {freed : Int} {page : Page}
    (member : page ∈ (swapPages size pages freed).1) (used : page.used = true) : page ∈ pages := by
  induction pages generalizing freed with
  | nil => exact nomatch member
  | cons head rest ih =>
      have cleared : page ≠ if head.used then head.clearUsed else head := by
        rintro rfl
        cases clear : head.used <;> simp [clear, Page.clearUsed] at used
      rw [swapPages] at member
      dsimp only at member
      by_cases enough : (if head.used then freed else freed + pageSize) ≥ size
      · rw [if_pos enough, List.mem_cons] at member
        exact List.mem_cons_of_mem _ (member.resolve_left cleared)
      · rw [if_neg enough, List.mem_cons] at member
        exact List.mem_cons_of_mem _ (ih (member.resolve_left cleared))

/-- A segment after the pass was there before it, with at least its used pages. -/
theorem swap_touched {size : Int} {segs : List Segment} {freed : Int} {seg : Segment}
    (member : seg ∈ (memoryPageSwap size segs freed).1) :
    ∃ old ∈ segs, old.id = seg.id ∧ (Touched seg → Touched old) := by
  induction segs generalizing freed with
  | nil => exact nomatch member
  | cons head rest ih =>
      rcases List.mem_cons.mp member with rfl | later
      · refine ⟨head, List.mem_cons_self, rfl, ?_⟩
        rintro ⟨page, inTable, used⟩
        exact ⟨page, swap_pages_used inTable used, used⟩
      · obtain ⟨old, oldMember, same⟩ := ih later
        exact ⟨old, List.mem_cons_of_mem _ oldMember, same⟩

theorem load_touched {req : MemoryRequest} {fresh : Nat → Page} {table : SegmentTable}
    {seg : Segment} (member : seg ∈ (memReqLoad req fresh table).segList) :
    (∃ old ∈ table.segList, old.id = seg.id ∧ (Touched seg → Touched old)) ∨
      (seg.id = req.proc.segId ∧ ¬Touched seg) := by
  simp only [memReqLoad, segmentAdd] at member
  rcases List.mem_append.mp member with earlier | last
  · left
    split at earlier
    · exact swap_touched earlier
    · exact ⟨seg, earlier, rfl, id⟩
  · right
    obtain rfl := List.mem_singleton.mp last
    exact ⟨(populate_header _ _).1, populate_untouched req fresh⟩

theorem mark_touched {table : SegmentTable} {sid : Int} {pc : Nat} {seg : Segment}
    (member : seg ∈ (markUsed table sid pc).segList) : seg ∈ table.segList ∨ seg.id = sid := by
  rcases mem_update_first member with old | ⟨old, -, hit, rfl⟩
  · exact .inl old
  · exact .inr (beq_iff_eq.mp hit)

end Ribabari.UsedPages
