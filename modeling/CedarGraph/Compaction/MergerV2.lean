import CedarGraph.Compaction.MergeOrder

/-!
# The second merger

The `operator>` of the heap items is `key.LessForSorting(other.key)`, and the heap is a
`priority_queue` with `std::greater`, so the greatest row comes out first. The rows of one file
keep their order; the rows of several files do not.
-/

namespace CedarGraph

open FixedWidth List CedarKey Row Merging

structure MergerOptions where
  removeTombstones : Bool
  targetBlockSize : Nat
  deriving DecidableEq, Repr

structure MergeStats where
  inputEntries : Nat
  outputEntries : Nat
  deletedEntries : Nat
  deriving DecidableEq, Repr

structure MergeState where
  last : Option Row
  added : List Row
  stats : MergeStats
  minEntityId : UInt64
  maxEntityId : UInt64
  deriving DecidableEq, Repr

namespace CompactionMergerV2

variable (opts : MergerOptions)

/-- The `operator>` of heap items. -/
def greater (left right : Row) : Bool :=
  left.key.lessForSorting right.key

/-- The top of a `priority_queue` with `std::greater` is greater than no other item. -/
def popsBefore (left right : Row) : Bool :=
  greater right left

def shouldFilter (row : Row) : Bool :=
  if row.key.isTombstone then opts.removeTombstones
  else if row.descriptor.isTombstone then opts.removeTombstones
  else false

def init : MergeState :=
  ⟨none, [], ⟨0, 0, 0⟩, uint64Max, 0⟩

def mergeStep (state : MergeState) (row : Row) : MergeState :=
  let stats := { state.stats with inputEntries := state.stats.inputEntries + 1 }
  if state.last.any fun seen => seen.repeats row then
    { state with stats := { stats with deletedEntries := stats.deletedEntries + 1 } }
  else
    let ranged := { state with
      last := some row
      minEntityId :=
        if row.key.entityId < state.minEntityId then row.key.entityId else state.minEntityId
      maxEntityId :=
        if state.maxEntityId < row.key.entityId then row.key.entityId else state.maxEntityId }
    if shouldFilter opts row && opts.removeTombstones then
      { ranged with stats := { stats with deletedEntries := stats.deletedEntries + 1 } }
    else
      { ranged with
        added := state.added ++ [⟨row.key, row.descriptor, 0⟩]
        stats := { stats with outputEntries := stats.outputEntries + 1 } }

def merge (heap : Merging.Policy popsBefore) (streams : List (List Row)) : MergeState :=
  (Merging.popped heap.top streams.flatten.length streams).foldl (mergeStep opts) init

/-- The heap that gives out the first of several equal keys. -/
def heapByPosition : Merging.Policy popsBefore :=
  Merging.Policy.firstMinimal popsBefore
    (by
      intro left right before
      have := transCmp_compareForSorting
      have swapped : left.key.compareForSorting right.key =
          (right.key.compareForSorting left.key).swap := Std.OrientedCmp.eq_swap
      rw [popsBefore, greater, lessForSorting, beq_iff_eq] at before
      rw [popsBefore, greater, lessForSorting, swapped, before]
      rfl)
    (by
      intro left middle right first second
      exact trans_of NotAfter second first)

def filtered (row : Row) : Bool :=
  shouldFilter opts row && opts.removeTombstones

theorem added_foldl (rows : List Row) (state : MergeState) :
    (rows.foldl (mergeStep opts) state).added =
      state.added ++ (Merging.compact repeats (filtered opts) state.last rows).map merged := by
  induction rows generalizing state with
  | nil => simp [compact]
  | cons row rest ih =>
    rw [foldl_cons, ih, compact, mergeStep]
    by_cases repeated : (state.last.any fun seen => seen.repeats row) = true
    · rw [if_pos repeated, if_pos repeated]
    · rw [if_neg repeated, if_neg repeated]
      dsimp only
      rw [filtered]
      split
      · rfl
      · rw [map_cons, append_assoc]
        rfl

theorem added_merge (heap : Merging.Policy popsBefore) (streams : List (List Row)) :
    (merge opts heap streams).added =
      (Merging.merge heap.top repeats (filtered opts) streams.flatten.length none
        streams).map merged := by
  rw [merge, added_foldl, merge_eq_compact]
  rfl

section Order

variable {opts : MergerOptions} {heap : Merging.Policy popsBefore}
  {streams : List (List Row)}

theorem added_sorted_of_one_input (sorted : ∀ stream ∈ streams, stream.Pairwise NotAfter)
    (oneInput : (Merging.heads streams).length ≤ 1) :
    (merge opts heap streams).added.Pairwise NotAfter := by
  have all : streams.flatten.Pairwise NotAfter := by
    cases items : streams.flatten with
    | nil => exact List.Pairwise.nil
    | cons first rest =>
      have someItem : streams.flatten ≠ [] := by
        rw [items]
        exact cons_ne_nil first rest
      obtain ⟨head, behind, found, -⟩ := popped_succ heap 0 someItem
      rw [← items, (flatten_of_one_head oneInput found).1]
      exact sorted _ (mem_of_getElem? found)
  rw [added_merge, merge_eq_compact, popped_one_stream heap le_rfl oneInput, pairwise_map]
  exact all.sublist (compact_sublist _ _)

theorem less_of_repeats
    {greatest row other : Row} (notLess : greatest.key.lessForSorting row.key = false)
    (ne : greatest.repeats row = false) (same : other.repeats row = true) :
    other.key.lessForSorting greatest.key = true := by
  have := transCmp_compareForSorting
  obtain ⟨entity, time, target, column, kind⟩ := repeats_iff.mp same
  have alike : greatest.key.compareVersioned other.key = greatest.key.compareVersioned row.key := by
    rw [compareVersioned, compareVersioned, entity, target, column, kind]
  have swapped : other.key.compareForSorting greatest.key =
      (greatest.key.compareForSorting other.key).swap := Std.OrientedCmp.eq_swap
  rw [lessForSorting, compareForSorting_eq] at notLess
  rw [lessForSorting, swapped, compareForSorting_eq, alike, time]
  cases items : greatest.key.compareVersioned row.key with
  | lt =>
    rw [items] at notLess
    cases notLess
  | gt => rfl
  | eq =>
    rw [items, Ordering.eq_then] at notLess
    rw [Ordering.eq_then]
    cases times : compareBytes (leBytes 8 greatest.key.timestamp.toNat)
        (leBytes 8 row.key.timestamp.toNat) with
    | lt =>
      rw [times] at notLess
      cases notLess
    | gt => rfl
    | eq =>
      have sameTime := (compareBytes_timestamp_eq_iff _ _).mp times
      simp only [compareVersioned, Ordering.then_eq_eq, Std.LawfulEqOrd.compare_eq_iff_eq] at items
      have isSame : greatest.repeats row = true :=
        repeats_iff.mpr ⟨items.1, sameTime, items.2.2.2, items.2.2.1, items.2.1⟩
      rw [ne] at isSame
      cases isSame

/-- Of two first rows with different logical keys the lesser one is added behind the greater
one. -/
theorem added_not_sorted_of_two_inputs (kept : ∀ row ∈ streams.flatten, filtered opts row = false)
    {left right : Row} (leftHead : left ∈ Merging.heads streams)
    (rightHead : right ∈ Merging.heads streams) (ne : left.repeats right = false) :
    ¬ (merge opts heap streams).added.Pairwise NotAfter := by
  intro sorted
  have inFlatten : ∀ row ∈ heads streams, row ∈ streams.flatten := by
    intro row isHead
    obtain ⟨stream, mem, headed⟩ := mem_filterMap.mp isHead
    exact mem_flatten.mpr ⟨stream, mem, mem_of_mem_head? headed⟩
  have someItem := ne_nil_of_mem (inFlatten left leftHead)
  obtain ⟨fuel, length⟩ := Nat.exists_eq_succ_of_ne_zero
    (Nat.pos_iff_ne_zero.mp (length_pos_iff.mpr someItem))
  obtain ⟨greatest, rest, found, isGreatest, taken⟩ := popped_succ heap fuel someItem
  have greatestKept : ¬ filtered opts greatest = true := by
    rw [kept greatest ((flatten_perm_set found).mem_iff.mpr mem_cons_self)]
    exact Bool.false_ne_true
  -- the greatest head is added first, and one of the two rows has another logical key
  have first : ∃ later, (merge opts heap streams).added = greatest.merged :: later := by
    rw [added_merge, merge_eq_compact, length, Nat.succ_eq_add_one, taken,
      compact, if_neg (by simp), if_neg greatestKept, map_cons]
    exact ⟨_, rfl⟩
  have someOther : ∃ row ∈ heads streams, greatest.repeats row = false := by
    by_contra none
    push Not at none
    have toLeft := Bool.eq_true_of_not_eq_false (none left leftHead)
    have toRight := Bool.eq_true_of_not_eq_false (none right rightHead)
    have same := equivalence_repeats.trans (equivalence_repeats.symm toLeft) toRight
    rw [ne] at same
    cases same
  obtain ⟨row, rowHead, otherKey⟩ := someOther
  have represented : (∃ output ∈ Merging.merge heap.top repeats (filtered opts)
      streams.flatten.length none streams, output = row ∨ output.repeats row = true) ∨
      ∃ seen ∈ (none : Option Row), seen.repeats row = true :=
    exists_mem_merge heap repeats le_rfl (inFlatten row rowHead) fun other mem _ => kept other mem
  rcases represented with ⟨output, outputMember, matching⟩ | ⟨seen, impossible, -⟩
  · have same : output.repeats row = true := by
      rcases matching with isRow | repeats
      · rw [isRow]
        exact equivalence_repeats.refl row
      · exact repeats
    have less := less_of_repeats (isGreatest row rowHead) otherKey same
    have added : output.merged ∈ (merge opts heap streams).added := by
      rw [added_merge]
      exact mem_map_of_mem outputMember
    obtain ⟨later, isFirst⟩ := first
    rw [isFirst] at added sorted
    rcases mem_cons.mp added with isGreatestRow | inLater
    · have sameKey : output.merged.key = greatest.merged.key := congrArg key isGreatestRow
      rw [merged, merged] at sameKey
      rw [repeats, sameKey] at same
      rw [repeats, same] at otherKey
      cases otherKey
    · have inOrder := (pairwise_cons.mp sorted).1 output.merged inLater
      rw [NotAfter] at inOrder
      exact Bool.false_ne_true (inOrder.symm.trans less)
  · cases impossible

/-- The rows of the output are sorted if only one input has rows.  They are not if the first
rows of two inputs have different logical keys and nothing is filtered. -/
theorem merge_sorts_one_input_only
    (opts : MergerOptions) (heap : Merging.Policy popsBefore) (streams : List (List Row))
    (sorted : ∀ stream ∈ streams, stream.Pairwise NotAfter) :
    ((Merging.heads streams).length ≤ 1 → (merge opts heap streams).added.Pairwise NotAfter) ∧
    ((∀ row ∈ streams.flatten, filtered opts row = false) →
      (∃ left ∈ Merging.heads streams, ∃ right ∈ Merging.heads streams,
        left.repeats right = false) →
      ¬ (merge opts heap streams).added.Pairwise NotAfter) := by
  refine ⟨added_sorted_of_one_input sorted, ?_⟩
  rintro kept ⟨left, leftHead, right, rightHead, ne⟩
  exact added_not_sorted_of_two_inputs kept leftHead rightHead ne

theorem merge_sorts_one_file :
    let rows : List Row := [⟨.vertex 1 0 1 0 0 0 0, ⟨16⟩, 7⟩, ⟨.vertex 2 0 1 0 0 0 0, ⟨32⟩, 7⟩]
    (merge ⟨false, 65536⟩ heapByPosition [rows]).added.Pairwise NotAfter :=
  (merge_sorts_one_input_only ⟨false, 65536⟩ heapByPosition _ (by decide +kernel)).1
    (by decide +kernel)

/-- Two files with one row each: the entity with the greater id is added first. -/
theorem merge_adds_greater_first :
    let first : List Row := [⟨.vertex 1 0 1 0 0 0 0, ⟨16⟩, 7⟩]
    let second : List Row := [⟨.vertex 2 0 1 0 0 0 0, ⟨32⟩, 7⟩]
    first.Pairwise NotAfter ∧ second.Pairwise NotAfter ∧
      (merge ⟨false, 65536⟩ heapByPosition [first, second]).added.map (·.key.entityId) = [2, 1] ∧
      ¬ (merge ⟨false, 65536⟩ heapByPosition [first, second]).added.Pairwise NotAfter := by
  decide +kernel

end Order

end CompactionMergerV2

end CedarGraph
