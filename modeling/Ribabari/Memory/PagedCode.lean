import Ribabari.Model.SegmentMemory

/-!
# Code in pages

`PAGE_NUMBER` and `PAGE_OFFSET` split an index into a page and a cell, and the
populate loop writes each instruction to the cell of its index. Everything else
that touches a segment, the swap pass and the used bits, leaves its content alone.
-/

namespace Ribabari.PagedCode

open Ribabari.FirstMatch Ribabari.ProcessRecords Ribabari.SegmentMemory

set_option autoImplicit false

/-- The cell that the fetch at `pc` reads. -/
def Segment.cell (seg : Segment) (pc : Nat) : Option Instr :=
  seg.pageTable[pageNumber pc]?.map fun page => page.code (pageOffset pc)

theorem fetch_eq_cell (table : SegmentTable) (sid : Int) (pc : Nat) :
    fetchInstr table sid pc = (segmentFind table sid).bind fun seg => Segment.cell seg pc := by
  unfold fetchInstr
  cases segmentFind table sid with
  | none => rfl
  | some seg => cases page : seg.pageTable[pageNumber pc]? <;> simp [Segment.cell, page]

/-- An index is determined by its page and its cell. -/
theorem address_injective {i j : Nat} (page : pageNumber i = pageNumber j)
    (offset : pageOffset i = pageOffset j) : i = j := by
  have remainder : i % 256 = j % 256 := congrArg Fin.val offset
  have quotient : i / 256 = j / 256 := page
  calc i = 256 * (i / 256) + i % 256 := (Nat.div_add_mod i 256).symm
    _ = 256 * (j / 256) + j % 256 := by rw [quotient, remainder]
    _ = j := Nat.div_add_mod j 256

theorem cell_modify_page (seg : Segment) (number pc : Nat) (f : Page → Page) :
    Segment.cell (seg.modifyPage number f) pc =
      seg.pageTable[pageNumber pc]?.map fun page =>
        (if number = pageNumber pc then f page else page).code (pageOffset pc) := by
  simp only [Segment.cell, Segment.modifyPage, Segment.withPages, List.getElem?_modify]
  cases seg.pageTable[pageNumber pc]? with
  | none => simp
  | some page => by_cases here : number = pageNumber pc <;> simp [here]

/-! ## The populate loop -/

/-- One step of the loop. -/
def writeCell (seg : Segment) (entry : Instr × Nat) : Segment :=
  seg.modifyPage (pageNumber entry.2) fun page => page.store (pageOffset entry.2) entry.1

theorem cell_write (seg : Segment) (instr : Instr) (i pc : Nat) :
    Segment.cell (writeCell seg (instr, i)) pc =
      if i = pc then (Segment.cell seg pc).map fun _ => instr else Segment.cell seg pc := by
  rw [writeCell, cell_modify_page]
  by_cases same : i = pc
  · subst same
    simp [Segment.cell, Page.store, Function.comp_def]
  · rw [if_neg same, Segment.cell]
    congr 1
    funext page
    split
    case isTrue here =>
        have elsewhere : pageOffset pc ≠ pageOffset i :=
          fun offset => same (address_injective here offset.symm)
        simp [Page.store, elsewhere]
    case isFalse => rfl

/-- Writing a run of instructions from `start` on changes exactly its cells. -/
theorem cell_write_all (code : List Instr) (start : Nat) (seg : Segment) (pc : Nat) :
    Segment.cell ((code.zipIdx start).foldl writeCell seg) pc =
      if start ≤ pc ∧ pc < start + code.length then
        (Segment.cell seg pc).bind fun _ => code[pc - start]?
      else Segment.cell seg pc := by
  induction code generalizing start seg with
  | nil =>
      have outside : ¬(start ≤ pc ∧ pc < start) := by omega
      simp [outside]
  | cons instr code ih =>
      rw [List.zipIdx_cons, List.foldl_cons, ih, cell_write]
      by_cases first : start = pc
      · subst first
        have passed : ¬(start + 1 ≤ start ∧ start < start + 1 + code.length) := by omega
        rw [if_neg passed]
        cases Segment.cell seg start <;> simp
      · by_cases inside : start + 1 ≤ pc ∧ pc < start + 1 + code.length
        · have later : pc - start = (pc - (start + 1)) + 1 := by omega
          rw [if_pos inside, if_neg first, if_pos (by rw [List.length_cons]; omega), later]
          simp
        · rw [if_neg inside, if_neg first, if_neg (by rw [List.length_cons]; omega)]

theorem cell_clear_used (numbers : List Nat) (seg : Segment) (pc : Nat) :
    Segment.cell
        (numbers.foldl (fun seg i => seg.modifyPage (pageNumber i) Page.clearUsed) seg) pc =
      Segment.cell seg pc := by
  induction numbers generalizing seg with
  | nil => rfl
  | cons number numbers ih =>
      rw [List.foldl_cons, ih, cell_modify_page, Segment.cell]
      congr 1
      funext page
      split <;> rfl

/-- The pages of a fresh segment are enough for every index of its code. -/
theorem created_cell_allocated (req : MemoryRequest) (fresh : Nat → Page) {pc : Nat}
    (inRange : pc < req.code.length) :
    ∃ old, Segment.cell (segmentCreate req fresh) pc = some old := by
  have counted := req.counted
  have page : pageNumber pc < (req.proc.codeLen + 255) / instructionsPerPage := by
    unfold pageNumber instructionsPerPage
    omega
  refine ⟨(fresh (pageNumber pc)).code (pageOffset pc), ?_⟩
  simp [Segment.cell, segmentCreate, List.getElem?_range page]

/-- The populated segment holds the code array, for every code length. -/
theorem cell_populate (req : MemoryRequest) (fresh : Nat → Page) {pc : Nat}
    (inRange : pc < req.code.length) :
    Segment.cell (segmentPopulate (segmentCreate req fresh) req.code) pc = req.code[pc]? := by
  obtain ⟨old, allocated⟩ := created_cell_allocated req fresh inRange
  have written := cell_write_all req.code 0
    ((List.range req.code.length).foldl
      (fun seg i => seg.modifyPage (pageNumber i) Page.clearUsed) (segmentCreate req fresh)) pc
  rw [cell_clear_used, allocated, if_pos (by omega)] at written
  exact written

/-! ## What the rest of the module preserves -/

/-- A segment without its used bits. -/
def Segment.content (seg : Segment) :=
  (seg.id, seg.size, seg.pageCount, seg.pageTable.map Page.code)

theorem cell_of_content {seg other : Segment} (same : Segment.content seg = Segment.content other)
    (pc : Nat) : Segment.cell seg pc = Segment.cell other pc := by
  have codes : seg.pageTable.map Page.code = other.pageTable.map Page.code :=
    congrArg (fun content => content.2.2.2) same
  have cells := congrArg
    (fun codes => codes[pageNumber pc]?.map fun code => code (pageOffset pc)) codes
  simpa [Segment.cell, Function.comp_def] using cells

theorem modify_page_content (seg : Segment) (number : Nat) {f : Page → Page}
    (keeps : ∀ page, (f page).code = page.code) :
    Segment.content (seg.modifyPage number f) = Segment.content seg := by
  have codes := map_modify_same Page.code keeps seg.pageTable number
  simp only [Segment.content, Segment.modifyPage, Segment.withPages, codes]

theorem swap_pages_code (size : Int) (pages : List Page) (freed : Int) :
    (swapPages size pages freed).1.map Page.code = pages.map Page.code := by
  induction pages generalizing freed with
  | nil => rfl
  | cons page rest ih =>
      have cleared : (if page.used then page.clearUsed else page).code = page.code := by
        split <;> rfl
      rw [swapPages]
      dsimp only
      by_cases enough : (if page.used then freed else freed + pageSize) ≥ size
      · rw [if_pos enough, List.map_cons, List.map_cons, cleared]
      · rw [if_neg enough, List.map_cons, List.map_cons, cleared, ih]

theorem swap_content (size : Int) (segs : List Segment) (freed : Int) :
    (memoryPageSwap size segs freed).1.map Segment.content = segs.map Segment.content := by
  induction segs generalizing freed with
  | nil => rfl
  | cons seg rest ih =>
      have swapped : Segment.content (swapSegment size seg freed).1 = Segment.content seg := by
        simp only [Segment.content, swapSegment, Segment.withPages, swap_pages_code]
      simp only [memoryPageSwap, List.map_cons, swapped, ih]

theorem mark_used_content (table : SegmentTable) (sid : Int) (pc : Nat) :
    (markUsed table sid pc).segList.map Segment.content =
      table.segList.map Segment.content := by
  apply map_update_first
  intro seg _
  exact modify_page_content seg _ fun _ => rfl

theorem load_content (req : MemoryRequest) (fresh : Nat → Page) (table : SegmentTable) :
    (memReqLoad req fresh table).segList.map Segment.content =
      table.segList.map Segment.content ++
        [Segment.content (segmentPopulate (segmentCreate req fresh) req.code)] := by
  simp only [memReqLoad, segmentAdd, List.map_append, List.map_singleton]
  split
  · rw [swap_content]
  · rfl

/-- Populating moves neither the id nor the size. -/
theorem populate_header (seg : Segment) (code : List Instr) :
    (segmentPopulate seg code).id = seg.id ∧ (segmentPopulate seg code).size = seg.size := by
  have headers : ∀ {Entry : Type} (write : Segment → Entry → Segment) (entries : List Entry),
      (∀ seg entry, (write seg entry).id = seg.id ∧ (write seg entry).size = seg.size) →
      ∀ seg, (entries.foldl write seg).id = seg.id ∧ (entries.foldl write seg).size = seg.size := by
    intro Entry write entries keeps
    induction entries with
    | nil => exact fun seg => ⟨rfl, rfl⟩
    | cons entry entries ih =>
        exact fun seg => ⟨(ih _).1.trans (keeps seg entry).1, (ih _).2.trans (keeps seg entry).2⟩
  have cleared := headers (fun seg i => seg.modifyPage (pageNumber i) Page.clearUsed)
    (List.range code.length) (fun _ _ => ⟨rfl, rfl⟩) seg
  have written := headers writeCell code.zipIdx (fun _ _ => ⟨rfl, rfl⟩)
    ((List.range code.length).foldl
      (fun seg i => seg.modifyPage (pageNumber i) Page.clearUsed) seg)
  exact ⟨written.1.trans cleared.1, written.2.trans cleared.2⟩

theorem load_ids (req : MemoryRequest) (fresh : Nat → Page) (table : SegmentTable) :
    (memReqLoad req fresh table).segList.map Segment.id =
      table.segList.map Segment.id ++ [req.proc.segId] := by
  have ids := congrArg (List.map fun content => content.1) (load_content req fresh table)
  simpa [Segment.content, Function.comp_def, (populate_header _ _).1, segmentCreate] using ids

end Ribabari.PagedCode
