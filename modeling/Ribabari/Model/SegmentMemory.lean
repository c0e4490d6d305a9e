import Mathlib.Logic.Function.Basic
import Mathlib.Data.List.GetD
import Ribabari.Foundation.FirstMatch
import Ribabari.Model.ProcessRecords

/-!
# The segment table

`memory.c` over exact integers. Fresh storage holds whatever `malloc` returned:
the content of new pages is a parameter of the load, and every result about
loaded code holds for all of it.
-/

namespace Ribabari.SegmentMemory

open Ribabari.FirstMatch Ribabari.ProcessRecords

set_option autoImplicit false

def kilobyte : Int := 1024

def maxMemSize : Int := 1024 * 1024 * 1024

def instructionsPerPage : Nat := 256

def pageSize : Int := 4 * kilobyte

def pageNumber (pc : Nat) : Nat := pc / instructionsPerPage

def pageOffset (pc : Nat) : Fin instructionsPerPage :=
  ⟨pc % instructionsPerPage, Nat.mod_lt _ (by decide)⟩

structure Page where
  code : Fin instructionsPerPage → Instr
  used : Bool

/-- `segment_t`. The page table always has the `page_count` pages it was
allocated with. -/
structure Segment where
  id : Int
  size : Int
  pageTable : List Page
  pageCount : Nat
  pageQtd : Int
  allocated : pageTable.length = pageCount

structure SegmentTable where
  segList : List Segment
  segListSize : Int
  remaining : Int

/-- `memory_request_t`: the process asking and its code array, which
`read_code` allocated with `code_len` entries. -/
structure MemoryRequest where
  proc : Process
  code : List Instr
  counted : code.length = proc.codeLen

def Segment.withPages (seg : Segment) (pages : List Page)
    (length : pages.length = seg.pageTable.length) : Segment where
  id := seg.id
  size := seg.size
  pageTable := pages
  pageCount := seg.pageCount
  pageQtd := seg.pageQtd
  allocated := length.trans seg.allocated

/-- Write through `&seg->page_table[number]`. -/
def Segment.modifyPage (seg : Segment) (number : Nat) (f : Page → Page) : Segment :=
  seg.withPages (seg.pageTable.modify number f) (by simp)

def segmentCreate (req : MemoryRequest) (fresh : Nat → Page) : Segment where
  id := req.proc.segId
  size := req.proc.segSize * kilobyte
  pageTable := (List.range ((req.proc.codeLen + 255) / instructionsPerPage)).map fresh
  pageCount := (req.proc.codeLen + 255) / instructionsPerPage
  pageQtd := (req.proc.segSize * kilobyte).tdiv pageSize
  allocated := by simp

def Page.clearUsed (page : Page) : Page := { page with used := false }

def Page.store (page : Page) (offset : Fin instructionsPerPage) (instr : Instr) : Page :=
  { page with code := Function.update page.code offset instr }

def segmentPopulate (seg : Segment) (code : List Instr) : Segment :=
  let cleared := (List.range code.length).foldl
    (fun seg i => seg.modifyPage (pageNumber i) Page.clearUsed) seg
  code.zipIdx.foldl
    (fun seg entry => seg.modifyPage (pageNumber entry.2)
      fun page => page.store (pageOffset entry.2) entry.1) cleared

def segmentAdd (table : SegmentTable) (seg : Segment) : SegmentTable :=
  { table with
    segList := table.segList ++ [seg]
    segListSize := table.segListSize + 1 }

/-- The inner loop of `memory_page_swap` over one page table. The test against
the requested size comes after the page, and its `break` leaves this loop only. -/
def swapPages (size : Int) : List Page → Int → List Page × Int
  | [], freed => ([], freed)
  | page :: rest, freed =>
      let page' := if page.used then page.clearUsed else page
      let freed' := if page.used then freed else freed + pageSize
      if freed' ≥ size then (page' :: rest, freed')
      else
        let tail := swapPages size rest freed'
        (page' :: tail.1, tail.2)

theorem swap_pages_length (size : Int) (pages : List Page) (freed : Int) :
    (swapPages size pages freed).1.length = pages.length := by
  induction pages generalizing freed with
  | nil => rfl
  | cons page rest ih =>
      simp only [swapPages]
      split_ifs <;> simp [ih]

def swapSegment (size : Int) (seg : Segment) (freed : Int) : Segment × Int :=
  (seg.withPages (swapPages size seg.pageTable freed).1 (swap_pages_length _ _ _),
    (swapPages size seg.pageTable freed).2)

/-- The outer loop of `memory_page_swap`: the list with its used bits cleared
on the way, and the bytes freed. -/
def memoryPageSwap (size : Int) : List Segment → Int → List Segment × Int
  | [], freed => ([], freed)
  | seg :: rest, freed =>
      let swapped := swapSegment size seg freed
      let tail := memoryPageSwap size rest swapped.2
      (swapped.1 :: tail.1, tail.2)

def segmentTableInit : SegmentTable where
  segList := []
  segListSize := 0
  remaining := 1024 * 1024 * 1024

def segmentFind (table : SegmentTable) (sid : Int) : Option Segment :=
  table.segList.find? fun seg => seg.id == sid

/-- `segment_free`. Undefined where it terminates the application. -/
def segmentFree (table : SegmentTable) (sid : Int) : Option SegmentTable :=
  match segmentFind table sid with
  | none => none
  | some seg => some
      { table with
        segList := table.segList.eraseP fun other => other.id == sid
        remaining := min maxMemSize (table.remaining + seg.size) }

def memReqLoad (req : MemoryRequest) (fresh : Nat → Page) (table : SegmentTable) :
    SegmentTable :=
  let seg := segmentCreate req fresh
  let newRemaining := table.remaining - seg.size
  let charged := { table with remaining := max 0 newRemaining }
  let table' :=
    if newRemaining < 0 then
      let swapped := memoryPageSwap seg.size charged.segList 0
      { charged with
        segList := swapped.1
        remaining := charged.remaining + swapped.2 }
    else charged
  segmentAdd table' (segmentPopulate seg req.code)

/-- The cpu's `page->used = 1`, at the page of `pc` in the segment found. -/
def markUsed (table : SegmentTable) (sid : Int) (pc : Nat) : SegmentTable :=
  { table with
    segList := updateFirst (fun seg => seg.id == sid)
      (fun seg => seg.modifyPage (pageNumber pc) fun page => { page with used := true })
      table.segList }

/-- The instruction at `pc` of the segment found, undefined where the lookup
fails or the page number is out of the page table. -/
def fetchInstr (table : SegmentTable) (sid : Int) (pc : Nat) : Option Instr := do
  let seg ← segmentFind table sid
  let page ← seg.pageTable[pageNumber pc]?
  some (page.code (pageOffset pc))

theorem free_inv {table after : SegmentTable} {sid : Int}
    (freed : segmentFree table sid = some after) :
    ∃ seg, segmentFind table sid = some seg ∧
      after =
        { table with
          segList := table.segList.eraseP fun other => other.id == sid
          remaining := min maxMemSize (table.remaining + seg.size) } := by
  unfold segmentFree at freed
  cases found : segmentFind table sid with
  | none => simp [found] at freed
  | some seg =>
      rw [found] at freed
      exact ⟨seg, rfl, (Option.some.inj freed).symm⟩

theorem find_listed {table : SegmentTable} {sid : Int}
    (listed : sid ∈ table.segList.map Segment.id) : ∃ seg, segmentFind table sid = some seg := by
  obtain ⟨seg, member, same⟩ := List.mem_map.mp listed
  apply Option.isSome_iff_exists.mp
  rw [segmentFind, List.find?_isSome]
  exact ⟨seg, member, beq_iff_eq.mpr same⟩

end Ribabari.SegmentMemory
