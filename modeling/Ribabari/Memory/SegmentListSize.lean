import Ribabari.Memory.RemainingMemory
import Ribabari.Model.LinkedList

/-!
# The two sizes of the segment list

`list_add` and `list_remove_node` keep the `size` of the list. `segment_add` counts in
`seg_list_size` as well, and `segment_free` does not, so the second size is that of the
list as long as nothing has been freed.
-/

namespace Ribabari.SegmentListSize

open Ribabari.FirstMatch Ribabari.SegmentMemory Ribabari.PagedCode Ribabari.RemainingMemory
open Ribabari.LinkedList Ribabari.TransitionSystem

set_option autoImplicit false

/-- `seg_list` as a linked list. The content of a node is the id of the segment it points
to, which is all that its searches read. -/
abbrev SegmentNodes := StoredList Int

/-- The search of `segment_free` and the unlinking of the node it finds. -/
def freeNode (nodes : SegmentNodes) (sid : Int) (fuel : Nat) : SegmentNodes :=
  match listSearch nodes.heap nodes.list (fun other => other == sid) fuel with
  | some (some node) => nodes.remove node
  | _ => nodes

/-- What a memory event does to the nodes. Every segment has a unit of fuel. -/
def recordNodes (nodes : SegmentNodes) (table : SegmentTable) : MemoryEvent → SegmentNodes
  | .load req _ => nodes.add req.proc.segId
  | .free sid => freeNode nodes sid (table.segList.length + 1)

def listedMemory : System (SegmentTable × SegmentNodes) MemoryEvent :=
  withHistory memorySystem (StoredList.init 0) recordNodes

def IsFree : MemoryEvent → Prop
  | .load _ _ => False
  | .free _ => True

instance : DecidablePred IsFree
  | .load _ _ => inferInstanceAs (Decidable False)
  | .free _ => inferInstanceAs (Decidable True)

/-- Both sizes are the number of segments. -/
def SizesAgree (table : SegmentTable) (nodes : SegmentNodes) : Prop :=
  table.segListSize = nodes.list.size ∧ nodes.list.size = table.segList.length

instance (table : SegmentTable) (nodes : SegmentNodes) : Decidable (SizesAgree table nodes) :=
  inferInstanceAs (Decidable (_ ∧ _))

/-- The linked list is the model's list of segments. -/
def Listed (table : SegmentTable) (nodes : SegmentNodes) (linked : List Address) : Prop :=
  Stores nodes linked (table.segList.map Segment.id)

variable {table after : SegmentTable} {nodes : SegmentNodes} {linked : List Address}

theorem listed_length (listed : Listed table nodes linked) :
    linked.length = table.segList.length :=
  (stores_length listed).trans (List.length_map _)

theorem listed_size (listed : Listed table nodes linked) :
    nodes.list.size = table.segList.length := by
  rw [stores_size listed, List.length_map]

theorem load_listed (listed : Listed table nodes linked) (req : MemoryRequest)
    (fresh : Nat → Page) :
    Listed (memReqLoad req fresh table) (nodes.add req.proc.segId) (linked ++ [nodes.fresh]) := by
  rw [Listed, load_ids]
  exact add_stores listed req.proc.segId

theorem free_listed (listed : Listed table nodes linked) {sid : Int}
    (freed : segmentFree table sid = some after) :
    after.segListSize = table.segListSize ∧
      table.segList.length = after.segList.length + 1 ∧
      ∃ left, Listed after (freeNode nodes sid (table.segList.length + 1)) left := by
  obtain ⟨before, seg, rest, split, matched, skipped, rfl⟩ := free_split freed
  have stores := listed
  rw [Listed, split, List.map_append, List.map_cons] at stores
  have enough : linked.length < table.segList.length + 1 := by
    rw [listed_length listed]
    exact Nat.lt_succ_self _
  obtain ⟨front, node, rear, rfl, same, search⟩ := list_search_holds
    (fun other => other == sid) stores.holds (by simpa using skipped) matched enough
  refine ⟨rfl, by simp [split]; omega, front ++ rear, ?_⟩
  rw [Listed, List.map_append, freeNode, search]
  exact remove_stores stores same

/-- The second size is ahead of the first by one for every free of the run. -/
theorem trace_listed {past : List ((SegmentTable × SegmentNodes) × MemoryEvent)}
    {state : SegmentTable × SegmentNodes} (trace : Trace listedMemory past state) :
    (∃ linked, Listed state.1 state.2 linked) ∧
      state.1.segListSize =
        state.1.segList.length + (past.countP fun entry => IsFree entry.2 : Nat) := by
  induction trace with
  | start =>
      exact ⟨⟨[], init_stores 0⟩, rfl⟩
  | @next past before after event prior fired ih =>
      obtain ⟨⟨linked, listed⟩, counted⟩ := ih
      obtain ⟨step, record⟩ := history_step fired
      rw [List.countP_append, record]
      cases event with
      | load req fresh =>
          have loaded : memReqLoad req fresh before.1 = after.1 := Option.some.inj step
          have both := load_listed listed req fresh
          have lengths := congrArg List.length (load_ids req fresh before.1)
          have size : (memReqLoad req fresh before.1).segListSize = before.1.segListSize + 1 := by
            simp only [memReqLoad, segmentAdd]
            split <;> rfl
          have kept : ([(before, MemoryEvent.load req fresh)].countP fun entry => IsFree entry.2) = 0 :=
            rfl
          rw [← loaded]
          refine ⟨⟨_, both⟩, ?_⟩
          simp only [List.length_map, List.length_append, List.length_singleton] at lengths
          rw [size, lengths, counted, kept]
          omega
      | free sid =>
          obtain ⟨size, lengths, left, kept⟩ := free_listed listed step
          have freed : ([(before, MemoryEvent.free sid)].countP fun entry => IsFree entry.2) = 1 :=
            rfl
          refine ⟨⟨left, kept⟩, ?_⟩
          rw [size, counted, lengths, freed]
          omega

/-- `seg_list_size` is the size of the list, which is the number of segments, exactly in
the runs in which no segment has been freed. -/
theorem sizes_agree_iff_nothing_freed {past : List ((SegmentTable × SegmentNodes) × MemoryEvent)}
    {state : SegmentTable × SegmentNodes} (trace : Trace listedMemory past state) :
    SizesAgree state.1 state.2 ↔ ∀ entry ∈ past, ¬IsFree entry.2 := by
  obtain ⟨⟨linked, listed⟩, counted⟩ := trace_listed trace
  have size := listed_size listed
  have none : (past.countP fun entry => IsFree entry.2) = 0 ↔ ∀ entry ∈ past, ¬IsFree entry.2 := by
    simp [List.countP_eq_zero]
  rw [← none, SizesAgree, size, counted]
  omega

def listedAfter (events : List MemoryEvent) : SegmentTable × SegmentNodes :=
  (run listedMemory events listedMemory.start).getD listedMemory.start

theorem sizes_agree_iff_nothing_freed_sample :
    SizesAgree (listedAfter (overcommitEvents.take 1)).1 (listedAfter (overcommitEvents.take 1)).2 :=
  (sizes_agree_iff_nothing_freed
    (trace_history (overcommitEvents.take 1) (Trace.start : Trace listedMemory [] _) rfl)).mpr
    (by decide)

/-- A load and a free leave an empty list of size zero and a `seg_list_size` of one. -/
theorem freed_segment_is_counted :
    Reachable listedMemory (listedAfter overcommitEvents) ∧
      (listedAfter overcommitEvents).1.segListSize = 1 ∧
      (listedAfter overcommitEvents).2.list.size = 0 ∧
      (listedAfter overcommitEvents).1.segList = [] ∧
      ¬SizesAgree (listedAfter overcommitEvents).1 (listedAfter overcommitEvents).2 :=
  ⟨reachable_run overcommitEvents rfl, by decide, by decide, rfl, by decide⟩

end Ribabari.SegmentListSize
