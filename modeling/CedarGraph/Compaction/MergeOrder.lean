import CedarGraph.Compaction.Merge
import CedarGraph.KeyOrder
import CedarGraph.Sst.BlockOrder

/-!
# The order of the rows of a compaction

The heap of `MergeZones` compares by `Compare`, while its inputs are sorted by
`CompareForSorting`. Both look at the entity id first, so the output is in the order of the entity
ids; behind them they differ.
-/

namespace CedarGraph

open FixedWidth List Merging CedarKey

theorem entityId_le_of_heapLess {first other : Row} (notLess : heapLess other first = false) :
    first.key.entityId ≤ other.key.entityId := by
  by_contra greater
  have less : compare other.key.entityId first.key.entityId = .lt :=
    Std.compare_eq_lt.mpr (UInt64.not_le.mp greater)
  rw [heapLess, compareKeys_eq, less, Ordering.lt_then] at notLess
  cases notLess

/-- The rows that a merge writes are in the order of their entity ids if the rows of every input
are, and then the block index of the output is sorted. -/
theorem mergeZones_entityOrdered (opts : CompactionOptions) (safePoint : UInt64) (outputLevel : Nat)
    (streams : List (List Row)) (ordered : ∀ stream ∈ streams, EntityOrdered stream) :
    EntityOrdered (mergeZones opts safePoint outputLevel streams) ∧
      ∀ builderOptions : BuilderOptions,
        EntrySorted (SstFile.mk builderOptions
          (mergeZones opts safePoint outputLevel streams)).reader.blockIndex := by
  have : IsTrans Row fun prev later => prev.key.entityId ≤ later.key.entityId :=
    ⟨fun _ _ _ => UInt64.le_trans⟩
  have taken : EntityOrdered (popped opts.heap.top streams.flatten.length streams) :=
    pairwise_popped opts.heap (fun _ _ => entityId_le_of_heapLess) _ ordered
  have written : EntityOrdered (mergeZones opts safePoint outputLevel streams) := by
    rw [EntityOrdered, mergeZones, merge_eq_compact, pairwise_map]
    exact taken.sublist (compact_sublist _ _)
  exact ⟨written, fun builderOptions => SstFile.entrySorted_blockIndex written⟩

theorem mergeZones_entityOrdered_example :
    let first : List Row := [⟨.vertex 1 0 10 0 0 0 0, ⟨16⟩, 7⟩, ⟨.vertex 3 0 10 0 0 0 0, ⟨16⟩, 7⟩]
    let second : List Row := [⟨.vertex 2 0 10 0 0 0 0, ⟨32⟩, 7⟩]
    EntityOrdered (mergeZones .default 0 1 [first, second]) ∧
      ∀ builderOptions : BuilderOptions,
        EntrySorted (SstFile.mk builderOptions
          (mergeZones .default 0 1 [first, second])).reader.blockIndex :=
  mergeZones_entityOrdered .default 0 1 _ (by decide)

theorem repeats_iff {left right : Row} :
    left.repeats right = true ↔
      left.key.entityId = right.key.entityId ∧ left.key.timestamp = right.key.timestamp ∧
        left.key.targetId = right.key.targetId ∧ left.key.columnId = right.key.columnId ∧
        left.key.entityType = right.key.entityType := by
  rw [Row.repeats, sameLogicalKey, decide_eq_true_iff]

theorem equivalence_repeats :
    Equivalence fun left right : Row => left.repeats right = true where
  refl := by
    intro row
    simp [repeats_iff]
  symm := by
    intro left right
    rw [repeats_iff, repeats_iff]
    rintro ⟨entity, time, target, column, kind⟩
    exact ⟨entity.symm, time.symm, target.symm, column.symm, kind.symm⟩
  trans := by
    intro left middle right
    rw [repeats_iff, repeats_iff, repeats_iff]
    rintro ⟨entity, time, target, column, kind⟩ ⟨entity', time', target', column', kind'⟩
    exact ⟨entity.trans entity', time.trans time', target.trans target', column.trans column',
      kind.trans kind'⟩

end CedarGraph
