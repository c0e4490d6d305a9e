import Ribabari.Foundation.DemandPrefix
import Ribabari.Memory.ByteSizes

/-!
# What a swap pass frees

`memory_page_swap` walks over the pages until their unused ones make up the requested
size. Its `break` leaves one page table only, so it processes a page of each further
table as well. `mem_req_load` floors the remaining bytes at zero before it adds what the
pass freed, so these bytes go to the new segment and still count as available.
-/

namespace Ribabari.SwapPass

open Ribabari.DemandPrefix Ribabari.ProcessRecords Ribabari.SegmentMemory
open Ribabari.RemainingMemory Ribabari.ByteSizes

set_option autoImplicit false

/-! ## The pages that are needed -/

/-- The pages of the segments in the order of the walk. -/
def pagesOf (segs : List Segment) : List Page := segs.flatMap Segment.pageTable

/-- What an unused page gives back. -/
def freedBytes (page : Page) : Int := if page.used then 0 else pageSize

def unusedBytes (pages : List Page) : Int := (pages.countP fun page => !page.used : Nat) * pageSize

/-- The pass processes the shortest prefix of pages whose unused ones reach the size, and
nothing else: it clears the used bits there and reports the unused pages. -/
def FreesWhatIsNeeded (size : Int) (segs : List Segment) : Prop :=
  ∃ before after, pagesOf segs = before ++ after ∧
    (∀ part rest, before = part ++ rest → rest ≠ [] → unusedBytes part < size) ∧
    (size ≤ unusedBytes before ∨ after = []) ∧
    pagesOf (memoryPageSwap size segs 0).1 = before.map Page.clearUsed ++ after ∧
    (memoryPageSwap size segs 0).2 = unusedBytes before ∧
    (memoryPageSwap size segs 0).2 < size + pageSize

/-- No page follows the page tables that meet the demand. -/
def MetInLastTable (size : Int) (segs : List Segment) : Prop :=
  ∀ n < segs.length, size ≤ unusedBytes (pagesOf (segs.take (n + 1))) →
    pagesOf (segs.drop (n + 1)) = []

instance (size : Int) (segs : List Segment) : Decidable (MetInLastTable size segs) :=
  inferInstanceAs (Decidable (∀ n < segs.length, _ → _))

theorem unused_total (pages : List Page) : unusedBytes pages = total freedBytes pages := by
  induction pages with
  | nil => rfl
  | cons page pages ih =>
      rw [total_cons, ← ih, unusedBytes, unusedBytes, freedBytes, List.countP_cons, page_size]
      cases page.used
      · simp
        omega
      · simp

theorem freed_nonneg (page : Page) : 0 ≤ freedBytes page := by
  unfold freedBytes
  split
  · exact Int.le_refl 0
  · decide

theorem freed_light (page : Page) : freedBytes page ≤ pageSize := by
  unfold freedBytes
  split
  · decide
  · exact Int.le_refl pageSize

@[simp] theorem pages_of_cons (seg : Segment) (segs : List Segment) :
    pagesOf (seg :: segs) = seg.pageTable ++ pagesOf segs :=
  List.flatMap_cons

@[simp] theorem pages_of_append (segs others : List Segment) :
    pagesOf (segs ++ others) = pagesOf segs ++ pagesOf others :=
  List.flatMap_append

/-! ## The inner loop -/

/-- A page is cleared, and counted when it was clear already. -/
theorem swap_page (size freed : Int) (page : Page) (pages : List Page) :
    swapPages size (page :: pages) freed =
      if freed + freedBytes page ≥ size then (page.clearUsed :: pages, freed + freedBytes page)
      else
        (page.clearUsed :: (swapPages size pages (freed + freedBytes page)).1,
          (swapPages size pages (freed + freedBytes page)).2) := by
  rcases page with ⟨code, used⟩
  cases used with
  | false => rfl
  | true => simp [swapPages, freedBytes, Page.clearUsed]

/-- While the demand is open, the inner loop takes exactly what it needs. -/
theorem swap_pages_demand {size : Int} (pages : List Page) {freed : Int} (unmet : freed < size) :
    swapPages size pages freed =
      ((takeDemand freedBytes (size - freed) pages).1.map Page.clearUsed ++
          (takeDemand freedBytes (size - freed) pages).2,
        freed + total freedBytes (takeDemand freedBytes (size - freed) pages).1) := by
  induction pages generalizing freed with
  | nil => simp [swapPages, takeDemand]
  | cons page pages ih =>
      rw [swap_page, take_demand_cons freedBytes (by omega), Int.sub_sub]
      by_cases enough : freed + freedBytes page ≥ size
      · rw [if_pos enough, take_demand_met freedBytes (by omega)]
        simp
      · rw [if_neg enough, ih (by omega)]
        simp [Int.add_assoc]

/-! ## The outer loop -/

section Tables

variable {size : Int}

variable (size) in
theorem swap_segments (seg : Segment) (segs : List Segment) (freed : Int) :
    pagesOf (memoryPageSwap size (seg :: segs) freed).1 =
        (swapPages size seg.pageTable freed).1 ++
          pagesOf (memoryPageSwap size segs (swapPages size seg.pageTable freed).2).1 ∧
      (memoryPageSwap size (seg :: segs) freed).2 =
        (memoryPageSwap size segs (swapPages size seg.pageTable freed).2).2 :=
  ⟨pages_of_cons _ _, rfl⟩

variable (size) in
/-- Once the demand is met, any further page is either cleared or counted. -/
theorem swap_idle_iff (segs : List Segment) (freed : Int) :
    (pagesOf (memoryPageSwap size segs freed).1 = pagesOf segs ∧
        (memoryPageSwap size segs freed).2 = freed) ↔ pagesOf segs = [] := by
  induction segs with
  | nil => exact ⟨fun _ => rfl, fun _ => ⟨rfl, rfl⟩⟩
  | cons seg segs ih =>
      obtain ⟨pages, count⟩ := swap_segments size seg segs freed
      rw [pages, count, pages_of_cons]
      cases table : seg.pageTable with
      | nil => simpa [swapPages] using ih
      | cons page rest =>
          refine ⟨?_, fun none => by simp at none⟩
          rintro ⟨samePages, sameCount⟩
          have grown := swap_grows size segs (swapPages size (page :: rest) freed).2
          have first := swap_pages_grows size rest (freed + freedBytes page)
          have head : page.clearUsed = page := by
            rw [swap_page] at samePages
            split at samePages <;> exact (List.cons.inj samePages).1
          have clear : page.used = false := by rw [← head]; rfl
          have counted : freedBytes page = pageSize := by simp [freedBytes, clear]
          have positive : 0 < pageSize := by decide
          rw [sameCount, swap_page] at grown
          split at grown <;> dsimp only at grown <;> omega

/-- The tables behind those that meet the demand, from a state of the count. -/
def MetInLastFrom (size freed : Int) (segs : List Segment) : Prop :=
  ∀ n < segs.length, size ≤ freed + total freedBytes (pagesOf (segs.take (n + 1))) →
    pagesOf (segs.drop (n + 1)) = []

theorem met_in_this {freed : Int} {seg : Segment} (segs : List Segment)
    (met : size ≤ freed + total freedBytes seg.pageTable) :
    MetInLastFrom size freed (seg :: segs) ↔ pagesOf segs = [] := by
  constructor
  · intro last
    exact last 0 (by simp) (by simpa [pagesOf] using met)
  · intro nothing n _ _
    apply List.eq_nil_iff_forall_not_mem.mpr
    intro page member
    obtain ⟨other, later, here⟩ := List.mem_flatMap.mp member
    have listed : page ∈ pagesOf segs :=
      List.mem_flatMap.mpr ⟨other, List.mem_of_mem_drop later, here⟩
    simp [nothing] at listed

theorem met_later {freed : Int} {seg : Segment} (segs : List Segment)
    (unmet : freed + total freedBytes seg.pageTable < size) :
    MetInLastFrom size freed (seg :: segs) ↔
      MetInLastFrom size (freed + total freedBytes seg.pageTable) segs := by
  constructor
  · intro last n within met
    apply last (n + 1) (by simpa using within)
    rw [List.take_succ_cons, pages_of_cons, total_append]
    omega
  · intro last n within met
    cases n with
    | zero =>
        rw [List.take_succ_cons, pages_of_cons, total_append] at met
        simp only [List.take_zero, pagesOf, List.flatMap_nil, total_nil] at met
        omega
    | succ n =>
        apply last n (by simpa using within)
        rw [List.take_succ_cons, pages_of_cons, total_append] at met
        omega

/-- By induction on the tables: those before the demand is met are taken whole, and those
after it must have no page. -/
theorem swap_demand_iff (segs : List Segment) {freed : Int} (unmet : freed < size) :
    (pagesOf (memoryPageSwap size segs freed).1 =
          (takeDemand freedBytes (size - freed) (pagesOf segs)).1.map Page.clearUsed ++
            (takeDemand freedBytes (size - freed) (pagesOf segs)).2 ∧
        (memoryPageSwap size segs freed).2 =
          freed + total freedBytes (takeDemand freedBytes (size - freed) (pagesOf segs)).1) ↔
      MetInLastFrom size freed segs := by
  induction segs generalizing freed with
  | nil =>
      refine ⟨fun _ n within => absurd within (Nat.not_lt_zero n), fun _ => ?_⟩
      simp [memoryPageSwap, pagesOf, takeDemand]
  | cons seg segs ih =>
      obtain ⟨pages, count⟩ := swap_segments size seg segs freed
      rw [pages, count, pages_of_cons, swap_pages_demand seg.pageTable unmet]
      dsimp only
      by_cases met : size ≤ freed + total freedBytes seg.pageTable
      · rw [take_demand_within freedBytes _ _ (by omega), met_in_this segs met,
          ← swap_idle_iff size segs, ← List.append_assoc, List.append_cancel_left_eq]
      · have unmet : total freedBytes seg.pageTable < size - freed := by omega
        have all := take_demand_beyond freedBytes freed_nonneg seg.pageTable (pagesOf segs) unmet
        have here := take_demand_beyond freedBytes freed_nonneg seg.pageTable [] unmet
        rw [List.append_nil, takeDemand, List.append_nil] at here
        rw [all, here, met_later segs (by omega), ← ih (by omega), Int.sub_sub]
        simp only [List.append_nil, List.map_append, List.append_assoc, total_append,
          List.append_cancel_left_eq, Int.add_assoc]

end Tables

/-- The pass frees what is needed, and nothing more, exactly when no page lies behind the
page table in which the demand is met. -/
theorem swap_frees_needed_iff (segs : List Segment) {size : Int} (positive : 0 < size) :
    FreesWhatIsNeeded size segs ↔ MetInLastTable size segs := by
  have demandIff := swap_demand_iff segs positive
  have parts := take_demand_parts freedBytes size (pagesOf segs)
  have demand := take_demand_is_demand freedBytes size (pagesOf segs)
  simp only [Int.sub_zero, Int.zero_add] at demandIff
  have same : MetInLastFrom size 0 segs ↔ MetInLastTable size segs := by
    simp only [MetInLastFrom, MetInLastTable, unused_total, Int.zero_add]
  rw [← same, ← demandIff]
  constructor
  · rintro ⟨before, after, split, shortest, reached, pages, count, -⟩
    simp only [unused_total] at shortest reached count
    obtain ⟨rfl, rfl⟩ := demand_unique freedBytes ⟨shortest, reached⟩ demand
      (split.symm.trans parts.symm)
    exact ⟨pages, count⟩
  · rintro ⟨pages, count⟩
    have overshoot := demand_overshoot freedBytes positive freed_light (by decide) demand
    refine ⟨_, _, parts.symm, ?_, ?_, pages, ?_, ?_⟩
    · simpa only [unused_total] using demand.shortest
    · simpa only [unused_total] using demand.reached
    · rw [unused_total, count]
    · rw [count]
      exact overshoot

def requestOf (segId segSize : Int) (code : List Instr) : MemoryRequest where
  proc :=
    { Process.blank with
      segId := segId
      segSize := segSize
      codeLen := code.length }
  code := code
  counted := rfl

def usedPage : Nat → Page := fun _ =>
  { code := fun _ => ⟨.exec, 0, none⟩
    used := true }

/-- Two segments of one page each, which take all of the memory. -/
def fullTable : SegmentTable :=
  memReqLoad (requestOf 2 4 [⟨.exec, 2, none⟩]) usedPage
    (memReqLoad (requestOf 1 1048572 [⟨.exec, 1, none⟩]) usedPage segmentTableInit)

theorem swap_frees_needed_sample : FreesWhatIsNeeded 4097 fullTable.segList :=
  (swap_frees_needed_iff fullTable.segList (by decide)).mpr (by decide)

/-- One page would do for a demand of one page; the pass gives up both. -/
theorem swap_frees_both_tables :
    fullTable.remaining = 0 ∧ (memoryPageSwap 4096 fullTable.segList 0).2 = 8192 ∧
      ¬FreesWhatIsNeeded 4096 fullTable.segList := by
  have freed : (memoryPageSwap 4096 fullTable.segList 0).2 = 8192 := by decide
  refine ⟨by decide, freed, ?_⟩
  rintro ⟨before, after, -, -, -, -, -, bounded⟩
  rw [freed] at bounded
  exact absurd bounded (by decide)

/-! ## What a load leaves -/

/-- What the swap pass of a load frees, nothing when it does not run. -/
def freedByLoad (req : MemoryRequest) (table : SegmentTable) : Int :=
  if table.remaining < req.proc.segSize * kilobyte then
    (memoryPageSwap (req.proc.segSize * kilobyte) table.segList 0).2
  else 0

/-- What the floor at zero forgets is counted as available once more. -/
theorem load_remaining_exact (req : MemoryRequest) (fresh : Nat → Page) (table : SegmentTable) :
    (memReqLoad req fresh table).remaining =
      table.remaining + freedByLoad req table - req.proc.segSize * kilobyte +
        max 0 (req.proc.segSize * kilobyte - table.remaining) := by
  have size : (segmentCreate req fresh).size = req.proc.segSize * kilobyte := rfl
  unfold freedByLoad memReqLoad segmentAdd
  simp only [size]
  by_cases short : table.remaining < req.proc.segSize * kilobyte
  · rw [if_pos short, if_pos (by omega)]
    dsimp only
    omega
  · rw [if_neg short, if_neg (by omega)]
    dsimp only
    omega

/-- A load conserves the memory exactly when the size fits in what remains. -/
theorem load_conserves_iff (req : MemoryRequest) (fresh : Nat → Page) (table : SegmentTable) :
    (memReqLoad req fresh table).remaining =
        table.remaining + freedByLoad req table - req.proc.segSize * kilobyte ↔
      req.proc.segSize * kilobyte ≤ table.remaining := by
  rw [load_remaining_exact]
  omega

/-- A segment of one page which takes all of the memory. -/
def wholeTable : SegmentTable :=
  memReqLoad (requestOf 1 1048576 [⟨.exec, 1, none⟩]) usedPage segmentTableInit

/-- The page that a load takes from the only segment is given to the new segment and is
still available after it. -/
theorem load_counts_page_twice :
    ¬∀ (req : MemoryRequest) (fresh : Nat → Page) (table : SegmentTable),
      0 ≤ req.proc.segSize →
      req.proc.segSize * kilobyte ≤ table.remaining + freedByLoad req table →
      (memReqLoad req fresh table).remaining =
        table.remaining + freedByLoad req table - req.proc.segSize * kilobyte := by
  intro conserves
  have before : wholeTable.remaining = 0 := by decide
  have freed : freedByLoad (requestOf 2 4 []) wholeTable = 4096 := by decide
  have after : (memReqLoad (requestOf 2 4 []) usedPage wholeTable).remaining = 4096 := by decide
  have same := conserves (requestOf 2 4 []) usedPage wholeTable (by decide) (by decide)
  rw [before, freed, after] at same
  exact absurd same (by decide)

end Ribabari.SwapPass
