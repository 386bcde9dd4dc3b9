import CedarGraph.Sst.Reader

/-!
# Rows in the order of their entities

Block searches need the block index to be sorted.  It is when the rows were added in the order of
their entity ids: a block ends with an entity id that no later block is below.
-/

namespace CedarGraph

open List

namespace KeyRange

private theorem exists_bound
    {bound : KeyRange → UInt64} (starts : ∀ key, bound (ofKey key) = key.entityId)
    (step : ∀ range key, bound (extend range key) = bound range ∨
      bound (extend range key) = key.entityId) {rows : List Row} (someRow : rows ≠ []) :
    ∃ row ∈ rows, bound (ofRows rows) = row.key.entityId := by
  cases rows with
  | nil => exact absurd rfl someRow
  | cons first rest =>
    refine foldlRecOn (motive := fun range => ∃ row ∈ first :: rest, bound range = row.key.entityId)
      (rest.map Row.key) extend ⟨first, mem_cons_self, starts first.key⟩ ?_
    rintro range ⟨row, mem, isRow⟩ key inRest
    rcases step range key with same | isKey
    · exact ⟨row, mem, same.trans isRow⟩
    · obtain ⟨later, laterMem, rfl⟩ := mem_map.mp inRest
      exact ⟨later, mem_cons_of_mem first laterMem, isKey⟩

theorem exists_bounds {rows : List Row} (someRow : rows ≠ []) :
    (∃ row ∈ rows, (ofRows rows).minEntityId = row.key.entityId) ∧
      ∃ row ∈ rows, (ofRows rows).maxEntityId = row.key.entityId := by
  constructor
  · refine exists_bound (fun key => rfl) (fun range key => ?_) someRow
    exact (ite_eq_or_eq _ _ _).symm
  · refine exists_bound (fun key => rfl) (fun range key => ?_) someRow
    exact (ite_eq_or_eq _ _ _).symm

end KeyRange

/-- The entity ids do not decrease. -/
def EntityOrdered (rows : List Row) : Prop :=
  rows.Pairwise fun prev later => prev.key.entityId ≤ later.key.entityId

instance (rows : List Row) : Decidable (EntityOrdered rows) :=
  inferInstanceAs (Decidable (List.Pairwise _ _))

/-- The entries of a block index are sorted by both bounds of their entity ids. -/
def EntrySorted (index : List BlockRange) : Prop :=
  index.Pairwise fun prev later =>
    prev.range.minEntityId ≤ later.range.minEntityId ∧
      prev.range.maxEntityId ≤ later.range.maxEntityId

namespace SstFile

theorem entrySorted_blockIndex {file : SstFile} (ordered : EntityOrdered file.rows) :
    EntrySorted file.reader.blockIndex := by
  rw [EntityOrdered, ← file.flatten_blocks, pairwise_flatten] at ordered
  rw [EntrySorted, reader, pairwise_map]
  refine ordered.2.imp_of_mem ?_
  intro prev later earlierMember laterMember inOrder
  have earlierRows := file.valid_builder.nonempty prev earlierMember
  have laterRows := file.valid_builder.nonempty later laterMember
  obtain ⟨low, lowMember⟩ := exists_mem_of_ne_nil prev earlierRows
  obtain ⟨high, highMember⟩ := exists_mem_of_ne_nil later laterRows
  obtain ⟨least, leastMember, isLeast⟩ := (KeyRange.exists_bounds laterRows).1
  obtain ⟨greatest, greatestMember, isGreatest⟩ := (KeyRange.exists_bounds earlierRows).2
  constructor
  · have below := (KeyRange.covers_ofRows lowMember).minEntity
    rw [isLeast]
    exact UInt64.le_trans below (inOrder low lowMember least leastMember)
  · have above := (KeyRange.covers_ofRows highMember).maxEntity
    rw [isGreatest]
    exact UInt64.le_trans (inOrder greatest greatestMember high highMember) above

end SstFile

end CedarGraph
