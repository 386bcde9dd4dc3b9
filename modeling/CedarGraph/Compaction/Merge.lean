import CedarGraph.Compaction.Pick
import CedarGraph.Engine.Lsm
import CedarGraph.Lib.MergeOrder

/-!
# The merge of a compaction

`MergeZones` merges the rows of the files it can open by means of a heap. It skips a row with
the logical key of the row before, drops old tombstones at the lowest level, and writes the
other rows with version 0.
-/

namespace CedarGraph

section HeapOrder

open CedarKey

private theorem transCmp_compareKeys : Std.TransCmp compareKeys := by
  delta compareKeys
  iterate 6 refine transCmp_then (transCmp_on _) ?_
  exact transCmp_on _

def heapLess (left right : Row) : Bool :=
  left.key.compareKeys right.key == .lt

private theorem heapLess_eq_false_iff {left right : Row} :
    heapLess left right = false ↔ (left.key.compareKeys right.key).isGE = true := by
  rw [heapLess]
  cases left.key.compareKeys right.key <;> decide

/-- The heap that pops the first of several equal keys. -/
def heapByPosition : Merging.Policy heapLess :=
  Merging.Policy.firstMinimal heapLess
    (by
      intro left right less
      have := transCmp_compareKeys
      have swapped : right.key.compareKeys left.key =
          (left.key.compareKeys right.key).swap := Std.OrientedCmp.eq_swap
      rw [heapLess_eq_false_iff, swapped]
      rw [heapLess, beq_iff_eq] at less
      rw [less]
      rfl)
    (by
      intro left middle right first second
      have := transCmp_compareKeys
      rw [heapLess_eq_false_iff] at first second ⊢
      exact Std.TransCmp.isGE_trans second first)

end HeapOrder

/-- The options of the engine and what the standard library leaves open: the order of
files of equal size, of equal keys in the heap, and of the files of a directory.
Every SST file has a header and a footer of 64 bytes. -/
structure CompactionOptions where
  lsm : LsmOptions
  sizeSort : SizeSort
  heap : Merging.Policy heapLess
  listing : List Nat → List Nat
  listing_perm : ∀ numbers, (listing numbers).Perm numbers
  hasHeader : ∀ file, 128 ≤ lsm.sstFileSize file

def CompactionOptions.config (opts : CompactionOptions) : SizeTieredConfig :=
  opts.lsm.compactionConfig

def CompactionOptions.default : CompactionOptions where
  lsm := .default
  sizeSort := .byInsertion
  heap := heapByPosition
  listing := id
  listing_perm := fun _ => List.Perm.refl _
  hasHeader := fun file => Nat.le_add_right 128 (48 * file.rows.length)

/-- The fields by which duplicates are recognized. -/
def CedarKey.sameLogicalKey (left right : CedarKey) : Bool :=
  decide (left.entityId = right.entityId ∧ left.timestamp = right.timestamp ∧
    left.targetId = right.targetId ∧ left.columnId = right.columnId ∧
    left.entityType = right.entityType)

def shouldDropTombstone (config : SizeTieredConfig) (safePoint : UInt64) (outputLevel : Nat)
    (key : CedarKey) : Bool :=
  if !key.isTombstone then false
  else if outputLevel < config.tombstoneCleanupLevel then false
  else if 0 < safePoint ∧ safePoint ≤ key.timestamp then false
  else decide (outputLevel = config.maxLevels - 1)

/-- `HandleBlobReference` copies the reference. -/
def handleBlobReference (desc : Descriptor) : Descriptor :=
  desc

def Row.repeats (seen row : Row) : Bool :=
  seen.key.sameLogicalKey row.key

def Row.merged (row : Row) : Row :=
  ⟨row.key, handleBlobReference row.descriptor, 0⟩

theorem Row.key_eq_of_merged_eq {left right : Row} (same : left.merged = right.merged) :
    left.key = right.key := by
  injection same

def mergeZones (opts : CompactionOptions) (safePoint : UInt64) (outputLevel : Nat)
    (streams : List (List Row)) : List Row :=
  (Merging.merge opts.heap.top Row.repeats
    (fun row => shouldDropTombstone opts.config safePoint outputLevel row.key)
    streams.flatten.length none streams).map Row.merged

section MergeFacts

variable {opts : CompactionOptions} {safePoint : UInt64} {outputLevel : Nat}
  {streams : List (List Row)}

theorem exists_of_mem_mergeZones
    {row : Row} (mem : row ∈ mergeZones opts safePoint outputLevel streams) :
    ∃ source ∈ streams.flatten, row = source.merged := by
  rw [mergeZones] at mem
  obtain ⟨source, sourceMember, rfl⟩ := List.mem_map.mp mem
  exact ⟨source, Merging.mem_flatten_of_mem_merge sourceMember, rfl⟩

theorem length_mergeZones_le (opts : CompactionOptions) (safePoint : UInt64) (outputLevel : Nat)
    (streams : List (List Row)) :
    (mergeZones opts safePoint outputLevel streams).length ≤ streams.flatten.length := by
  rw [mergeZones, List.length_map]
  exact Merging.length_merge_le _ _ _

/-- No row is a tombstone to drop, and rows with one logical key have one key and one
descriptor. -/
structure KeepsAll (opts : CompactionOptions) (safePoint : UInt64) (outputLevel : Nat)
    (rows : List Row) : Prop where
  notDropped : ∀ row ∈ rows, shouldDropTombstone opts.config safePoint outputLevel row.key = false
  agree : ∀ left ∈ rows, ∀ right ∈ rows, left.repeats right = true → left.merged = right.merged

/-- Where rows with one logical key agree, the merge writes the rows that are not dropped. -/
theorem mem_mergeZones_iff
    (agree : ∀ left ∈ streams.flatten, ∀ right ∈ streams.flatten,
      left.repeats right = true → left.merged = right.merged) {row : Row} :
    row ∈ mergeZones opts safePoint outputLevel streams ↔
      ∃ source ∈ streams.flatten,
        shouldDropTombstone opts.config safePoint outputLevel source.key = false ∧
          row = source.merged := by
  have sameRow : ∀ source ∈ streams.flatten, ∀ other ∈ streams.flatten,
      other = source ∨ other.repeats source = true → other.merged = source.merged := by
    intro source sourceMember other otherMember matching
    rcases matching with same | same
    · rw [same]
    · exact agree other otherMember source sourceMember same
  rw [mergeZones, List.mem_map]
  constructor
  · rintro ⟨source, mem, rfl⟩
    refine ⟨source, Merging.mem_flatten_of_mem_merge mem, ?_, rfl⟩
    rw [Merging.merge_eq_compact] at mem
    have kept := Merging.not_dropped_of_mem_compact mem
    exact kept
  · rintro ⟨source, sourceMember, kept, rfl⟩
    have groupKept : ∀ other ∈ streams.flatten, other = source ∨ other.repeats source = true →
        shouldDropTombstone opts.config safePoint outputLevel other.key = false := by
      intro other otherMember matching
      rw [Row.key_eq_of_merged_eq (sameRow source sourceMember other otherMember matching)]
      exact kept
    rcases Merging.exists_mem_merge opts.heap Row.repeats le_rfl sourceMember groupKept with
      ⟨output, outputMember, matching⟩ | ⟨seen, impossible, -⟩
    · have inStreams := Merging.mem_flatten_of_mem_merge outputMember
      exact ⟨output, outputMember, sameRow source sourceMember output inStreams matching⟩
    · cases impossible

end MergeFacts

end CedarGraph
