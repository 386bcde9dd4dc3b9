import CedarGraph.Lib.Runs
import CedarGraph.Types

/-!
# Building an SST file

`ZoneColumnarSstBuilder` collects rows into blocks and remembers the blocks of every entity. A
flushed block is the list of its rows; their layout in zones is the subject of the file format.
A file is determined by its options and rows, so `SstFile` records exactly these.
-/

namespace CedarGraph

open List Prod Option

/-- A sorting routine for rows, such as `std::sort` with `LessForSorting`: it
returns a permutation of its input in which no row is less than an earlier one.
Which of several equal keys comes first is left open. -/
structure RowSort where
  sort : List Row → List Row
  perm : ∀ rows, (sort rows).Perm rows
  sorted : ∀ rows, (sort rows).Pairwise fun prev later =>
    later.key.lessForSorting prev.key = false

section InsertionSort

open CedarKey

theorem transCmp_on {Key Field : Type} [Ord Field] [Std.TransOrd Field] (field : Key → Field) :
    Std.TransCmp fun left right => compare (field left) (field right) :=
  inferInstanceAs (Std.TransCmp (compareOn field))

theorem transCmp_then {Key : Type} {first rest : Key → Key → Ordering}
    (_ : Std.TransCmp first) (_ : Std.TransCmp rest) :
    Std.TransCmp fun left right => (first left right).then (rest left right) :=
  inferInstanceAs (Std.TransCmp (compareLex first rest))

theorem transCmp_compareForSorting : Std.TransCmp compareForSorting := by
  delta compareForSorting
  iterate 4 refine transCmp_then (transCmp_on _) ?_
  -- later timestamps come first
  have byTime := transCmp_on timestampBe
  exact transCmp_then .opposite (transCmp_on _)

def NotAfter (prev later : Row) : Prop :=
  later.key.lessForSorting prev.key = false

instance : DecidableRel NotAfter := fun _ _ => inferInstanceAs (Decidable (_ = _))

private theorem notAfter_iff {prev later : Row} :
    NotAfter prev later ↔ (later.key.compareForSorting prev.key).isGE = true := by
  rw [NotAfter, lessForSorting]
  cases later.key.compareForSorting prev.key <;> decide

instance : Std.Total NotAfter where
  total left right := by
    have := transCmp_compareForSorting
    have swapped : right.key.compareForSorting left.key =
        (left.key.compareForSorting right.key).swap := Std.OrientedCmp.eq_swap
    rw [notAfter_iff, notAfter_iff, swapped]
    cases left.key.compareForSorting right.key <;> decide

instance : IsTrans Row NotAfter where
  trans _ _ _ first second := by
    have := transCmp_compareForSorting
    rw [notAfter_iff] at first second ⊢
    exact Std.TransCmp.isGE_trans second first

/-- Insertion sort is one such routine. -/
def RowSort.byInsertion : RowSort where
  sort := List.insertionSort NotAfter
  perm := perm_insertionSort NotAfter
  sorted := pairwise_insertionSort NotAfter

end InsertionSort

structure BuilderOptions where
  targetBlockSize : Nat
  blockRowLimit : Nat
  enableCompression : Bool
  outputLevel : Int
  deriving DecidableEq, Repr

def BuilderOptions.default : BuilderOptions :=
  ⟨256 * 1024, 16384, true, 0⟩

/-- The options of a compaction into a level. -/
def BuilderOptions.forLevel (outputLevel : Int) : BuilderOptions :=
  ⟨256 * 1024, 16384, true, outputLevel⟩

structure KeyRange where
  minEntityId : UInt64
  maxEntityId : UInt64
  minTimestamp : UInt64
  maxTimestamp : UInt64
  deriving DecidableEq, Repr

namespace KeyRange

def zero : KeyRange := ⟨0, 0, 0, 0⟩

def ofKey (key : CedarKey) : KeyRange :=
  ⟨key.entityId, key.entityId, key.timestamp, key.timestamp⟩

def extend (range : KeyRange) (key : CedarKey) : KeyRange :=
  ⟨if key.entityId < range.minEntityId then key.entityId else range.minEntityId,
    if range.maxEntityId < key.entityId then key.entityId else range.maxEntityId,
    if key.timestamp < range.minTimestamp then key.timestamp else range.minTimestamp,
    if range.maxTimestamp < key.timestamp then key.timestamp else range.maxTimestamp⟩

/-- The smallest and largest entity id and timestamp; all zero without rows. -/
def ofRows : List Row → KeyRange
  | [] => zero
  | first :: rest => (rest.map Row.key).foldl extend (ofKey first.key)

/-- The entity id and the timestamp of the key lie in the range. -/
structure Covers (range : KeyRange) (key : CedarKey) : Prop where
  minEntity : range.minEntityId ≤ key.entityId
  maxEntity : key.entityId ≤ range.maxEntityId
  minTime : range.minTimestamp ≤ key.timestamp
  maxTime : key.timestamp ≤ range.maxTimestamp

theorem covers_ofKey (key : CedarKey) : (ofKey key).Covers key :=
  ⟨UInt64.le_refl _, UInt64.le_refl _, UInt64.le_refl _, UInt64.le_refl _⟩

theorem covers_extend_self (range : KeyRange) (key : CedarKey) : (range.extend key).Covers key := by
  constructor <;> simp only [extend, UInt64.le_iff_toNat_le, UInt64.lt_iff_toNat_lt] <;>
    split <;> omega

theorem covers_extend
    {range : KeyRange} {key : CedarKey} (covered : range.Covers key) (other : CedarKey) :
    (range.extend other).Covers key := by
  rcases covered with ⟨minEntity, maxEntity, minTime, maxTime⟩
  rw [UInt64.le_iff_toNat_le] at minEntity maxEntity minTime maxTime
  constructor <;> simp only [extend, UInt64.le_iff_toNat_le, UInt64.lt_iff_toNat_lt] <;>
    split <;> omega

theorem covers_ofRows {rows : List Row} {row : Row} (mem : row ∈ rows) :
    (ofRows rows).Covers row.key := by
  cases rows with
  | nil => cases mem
  | cons first rest =>
    rcases mem_cons.mp mem with rfl | restMember
    · exact foldlRecOn (motive := fun range : KeyRange => range.Covers row.key) _ extend
        (covers_ofKey _) fun _ covered other _ => covers_extend covered other
    · exact Runs.foldl_of_mem (p := fun range : KeyRange => range.Covers row.key)
        (fun _ other covered => covers_extend covered other)
        (fun range => covers_extend_self range _) (mem_map_of_mem restMember) _

/-- The smallest and the largest timestamp are those of two rows. -/
theorem timestamps_ofRows {rows : List Row} (nonempty : rows ≠ []) :
    (∃ row ∈ rows, row.key.timestamp = (ofRows rows).minTimestamp) ∧
      ∃ row ∈ rows, row.key.timestamp = (ofRows rows).maxTimestamp := by
  cases rows with
  | nil => exact absurd rfl nonempty
  | cons first rest =>
    refine foldlRecOn (motive := fun range : KeyRange =>
      (∃ row ∈ first :: rest, row.key.timestamp = range.minTimestamp) ∧
        ∃ row ∈ first :: rest, row.key.timestamp = range.maxTimestamp) _ extend
      ⟨⟨first, mem_cons_self, rfl⟩, first, mem_cons_self, rfl⟩ ?_
    intro range found key member
    obtain ⟨row, inRest, rfl⟩ := mem_map.mp member
    have listed := mem_cons_of_mem first inRest
    rw [extend]
    constructor
    · dsimp only
      split
      · exact ⟨row, listed, rfl⟩
      · exact found.1
    · dsimp only
      split
      · exact ⟨row, listed, rfl⟩
      · exact found.2

/-- The hours that the temporal filter of a file has a part for. -/
def hours (range : KeyRange) : Nat :=
  max 1 ((range.maxTimestamp.toNat - range.minTimestamp.toNat + 3599999999) / 3600000000)

end KeyRange

/-- `entity_blocks_` and the reader's `entity_index_`: block numbers by entity. -/
abbrev EntityBlocks := List (UInt64 × List Nat)

namespace EntityBlocks

/-- Append block numbers to an entity's entry, creating it when it is missing. -/
def append (eid : UInt64) (blocks : List Nat) : EntityBlocks → EntityBlocks
  | [] => [(eid, blocks)]
  | entry :: rest =>
    if entry.1 = eid then (entry.1, entry.2 ++ blocks) :: rest
    else entry :: append eid blocks rest

theorem lookup_append (index : EntityBlocks) (eid other : UInt64) (blocks : List Nat) :
    (append eid blocks index).lookup other =
      if other = eid then some ((index.lookup other).getD [] ++ blocks)
      else index.lookup other := by
  induction index with
  | nil =>
    by_cases same : other = eid
    · simp [append, same]
    · simp [append, same]
  | cons entry rest ih =>
    rcases entry with ⟨key, ids⟩
    rw [append]
    dsimp only
    by_cases keySame : key = eid
    · rw [if_pos keySame]
      subst keySame
      by_cases otherSame : other = key
      · simp [otherSame]
      · have differs : (other == key) = false := by simpa using otherSame
        simp [lookup_cons, differs, otherSame]
    · rw [if_neg keySame]
      by_cases otherKey : other = key
      · subst otherKey
        simp [keySame]
      · have differs : (other == key) = false := by simpa using otherKey
        simp [lookup_cons, differs, ih]

theorem map_fst_append (index : EntityBlocks) (eid : UInt64) (blocks : List Nat) :
    (append eid blocks index).map fst =
      if eid ∈ index.map fst then index.map fst
      else index.map fst ++ [eid] := by
  induction index with
  | nil => rfl
  | cons entry rest ih =>
    rcases entry with ⟨key, ids⟩
    rw [append]
    dsimp only
    by_cases keySame : key = eid
    · simp [keySame]
    · have notHead : ¬ eid = key := fun equal => keySame equal.symm
      rw [if_neg keySame, map_cons, ih]
      by_cases inRest : eid ∈ rest.map fst
      · simp [inRest]
      · simp [inRest, notHead]

theorem nodup_append {index : EntityBlocks} (nodup : (index.map fst).Nodup)
    (eid : UInt64) (blocks : List Nat) : ((append eid blocks index).map fst).Nodup := by
  rw [map_fst_append]
  by_cases mem : eid ∈ index.map fst
  · rw [if_pos mem]
    exact nodup
  · rw [if_neg mem]
    rw [← concat_eq_append]
    exact List.Nodup.concat mem nodup

end EntityBlocks

structure SstBuilder where
  options : BuilderOptions
  buffer : List Row
  blocks : List (List Row)
  entityBlocks : EntityBlocks

namespace SstBuilder

def init (options : BuilderOptions) : SstBuilder :=
  ⟨options, [], [], []⟩

variable (builder : SstBuilder)

def shouldCutBlock : Bool :=
  !builder.buffer.isEmpty &&
    (decide (builder.options.blockRowLimit ≤ builder.buffer.length) ||
      decide (builder.options.targetBlockSize ≤ builder.buffer.length * 40))

def flushBlock : SstBuilder :=
  if builder.buffer.isEmpty then builder
  else { builder with blocks := builder.blocks ++ [builder.buffer], buffer := [] }

def add (row : Row) : SstBuilder :=
  let collected : SstBuilder :=
    { builder with
      buffer := builder.buffer ++ [row]
      entityBlocks :=
        builder.entityBlocks.append row.key.entityId [builder.blocks.length] }
  if collected.shouldCutBlock then collected.flushBlock else collected

def rows : List Row :=
  builder.blocks.flatten ++ builder.buffer

/-- What `add` maintains: no block is empty, entries are distinct, and an entity
has an entry that lists exactly the blocks with a row of it. -/
structure Valid (builder : SstBuilder) : Prop where
  nonempty : ∀ block ∈ builder.blocks, block ≠ []
  nodup : (builder.entityBlocks.map fst).Nodup
  listed : ∀ eid id,
    id ∈ (builder.entityBlocks.lookup eid).getD [] ↔
      ∃ block, (builder.blocks ++ [builder.buffer])[id]? = some block ∧
        ∃ row ∈ block, row.key.entityId = eid
  present : ∀ eid,
    (builder.entityBlocks.lookup eid).isSome ↔ ∃ row ∈ builder.rows, row.key.entityId = eid

theorem valid_init (options : BuilderOptions) : (init options).Valid := by
  refine ⟨by simp [init], by simp [init], ?_, by simp [init, rows]⟩
  intro eid id
  cases id with
  | zero => simp [init]
  | succ id => simp [init]

theorem rows_flushBlock : builder.flushBlock.rows = builder.rows := by
  rw [flushBlock]
  split
  · rfl
  · simp [rows]

theorem exists_concat_iff {blocks : List (List Row)} {last : List Row} {id : Nat}
    {wanted : Row → Prop} :
    (∃ block, (blocks ++ [last])[id]? = some block ∧ ∃ row ∈ block, wanted row) ↔
      (∃ block, blocks[id]? = some block ∧ ∃ row ∈ block, wanted row) ∨
        id = blocks.length ∧ ∃ row ∈ last, wanted row := by
  rcases lt_trichotomy id blocks.length with below | rfl | above
  · simp [getElem?_append_left below, below.ne]
  · simp
  · simp [getElem?_eq_none above.le, getElem?_append_right above.le, above.ne',
      Nat.sub_ne_zero_of_lt above]

variable {builder : SstBuilder}

theorem valid_flushBlock (valid : builder.Valid) : builder.flushBlock.Valid := by
  have sameRows := rows_flushBlock builder
  rw [flushBlock] at sameRows ⊢
  by_cases empty : builder.buffer.isEmpty = true
  · rw [if_pos empty]
    exact valid
  rw [if_neg empty] at sameRows ⊢
  have bufferNonempty : builder.buffer ≠ [] := by
    simpa using empty
  refine ⟨?_, valid.nodup, ?_, ?_⟩
  · intro block mem
    rcases mem_append.mp mem with old | new
    · exact valid.nonempty block old
    · rw [mem_singleton.mp new]
      exact bufferNonempty
  · intro eid id
    symm
    rw [valid.listed, exists_concat_iff]
    simp
  · intro eid
    rw [sameRows]
    exact valid.present eid

private theorem valid_collect
    (valid : builder.Valid) (row : Row) :
    Valid { builder with
      buffer := builder.buffer ++ [row]
      entityBlocks :=
        builder.entityBlocks.append row.key.entityId [builder.blocks.length] } := by
  refine ⟨valid.nonempty, EntityBlocks.nodup_append valid.nodup _ _, ?_, ?_⟩
  · intro eid id
    have old := valid.listed eid id
    rw [exists_concat_iff] at old ⊢
    dsimp only
    rw [EntityBlocks.lookup_append]
    by_cases same : eid = row.key.entityId
    · rw [if_pos same, getD_some, mem_append, mem_singleton, old]
      simp only [same, mem_append, mem_singleton, exists_or, or_and_right, exists_eq_left, or_true,
        and_true]
      grind
    · rw [if_neg same, old]
      simp [or_and_right, exists_or, Ne.symm same]
  · intro eid
    have old := valid.present eid
    dsimp only [rows] at old ⊢
    rw [EntityBlocks.lookup_append]
    by_cases same : eid = row.key.entityId
    · rw [if_pos same]
      simp only [isSome_some, true_iff]
      exact ⟨row, by simp, same.symm⟩
    · rw [if_neg same, old]
      simp [or_and_right, exists_or, Ne.symm same]

theorem valid_add (valid : builder.Valid) (row : Row) : (builder.add row).Valid := by
  rw [add]
  split
  · exact valid_flushBlock (valid_collect valid row)
  · exact valid_collect valid row

theorem rows_add (builder : SstBuilder) (row : Row) :
    (builder.add row).rows = builder.rows ++ [row] := by
  rw [add]
  split
  · rw [rows_flushBlock]
    simp [rows]
  · simp [rows]

end SstBuilder

/-- The file that a builder with these options writes for these rows. -/
structure SstFile where
  options : BuilderOptions
  rows : List Row
  deriving DecidableEq, Repr

namespace SstFile

/-- The builder after every row was added and `Finish` flushed the last block. -/
def builder (file : SstFile) : SstBuilder :=
  (file.rows.foldl SstBuilder.add (SstBuilder.init file.options)).flushBlock

def blocks (file : SstFile) : List (List Row) :=
  file.builder.blocks

/-- The entity map as `WriteFile` serializes it: every list of block numbers
sorted and without repetitions. -/
def entityBlocks (file : SstFile) : EntityBlocks :=
  file.builder.entityBlocks.map fun entry =>
    (entry.1, (entry.2.insertionSort (· ≤ ·)).dedup)

theorem valid_builder (file : SstFile) : file.builder.Valid := by
  apply SstBuilder.valid_flushBlock
  exact foldlRecOn _ SstBuilder.add (SstBuilder.valid_init _) fun _ valid row _ =>
    SstBuilder.valid_add valid row

theorem buffer_builder (file : SstFile) : file.builder.buffer = [] := by
  rw [builder, SstBuilder.flushBlock]
  split
  case isTrue empty =>
    simpa using empty
  case isFalse =>
    rfl

theorem flatten_blocks (file : SstFile) : file.blocks.flatten = file.rows := by
  have rowsFold : ∀ (rows : List Row) (builder : SstBuilder),
      (rows.foldl SstBuilder.add builder).rows = builder.rows ++ rows := by
    intro rows
    induction rows with
    | nil =>
      intro builder
      simp
    | cons head tail ih =>
      intro builder
      rw [foldl_cons, ih, SstBuilder.rows_add, append_assoc]
      rfl
  have all : file.builder.rows = file.rows := by
    rw [builder, SstBuilder.rows_flushBlock, rowsFold]
    rfl
  rw [SstBuilder.rows, buffer_builder, append_nil] at all
  exact all

section

variable (file : SstFile)
include file

section

variable (eid : UInt64)
include eid

theorem lookup_entityBlocks :
    file.entityBlocks.lookup eid =
      (file.builder.entityBlocks.lookup eid).map fun ids =>
        (ids.insertionSort (· ≤ ·)).dedup := by
  rw [entityBlocks]
  induction file.builder.entityBlocks with
  | nil => rfl
  | cons entry rest ih =>
    rcases entry with ⟨key, ids⟩
    rw [map_cons, lookup_cons, lookup_cons]
    by_cases same : eid = key
    · simp [same]
    · have differs : (eid == key) = false := by simpa using same
      simp [differs, ih]

theorem mem_entityBlocks (id : Nat) :
    id ∈ (file.entityBlocks.lookup eid).getD [] ↔
      ∃ block, file.blocks[id]? = some block ∧ ∃ row ∈ block, row.key.entityId = eid := by
  have listed := file.valid_builder.listed eid id
  rw [buffer_builder] at listed
  have sameIds : id ∈ (file.entityBlocks.lookup eid).getD [] ↔
      id ∈ (file.builder.entityBlocks.lookup eid).getD [] := by
    rw [lookup_entityBlocks]
    cases file.builder.entityBlocks.lookup eid with
    | none => rfl
    | some ids => simp [mem_insertionSort]
  rw [sameIds, listed, SstBuilder.exists_concat_iff]
  simp [blocks]

theorem nodup_entityBlocks : ((file.entityBlocks.lookup eid).getD []).Nodup := by
  rw [lookup_entityBlocks]
  cases file.builder.entityBlocks.lookup eid with
  | none => exact nodup_nil
  | some ids => exact nodup_dedup _

theorem isSome_lookup_entityBlocks :
    (file.entityBlocks.lookup eid).isSome ↔ ∃ row ∈ file.rows, row.key.entityId = eid := by
  have present := file.valid_builder.present eid
  rw [SstBuilder.rows, buffer_builder, append_nil] at present
  rw [lookup_entityBlocks, isSome_map, present, ← flatten_blocks]
  rfl

end

/-- A block is cut only once it has `size` rows, for any `size` that the two cut
conditions imply; only the last block of a file can be shorter. -/
theorem length_blocks_le {size : Nat}
    (cut : ∀ count, file.options.blockRowLimit ≤ count ∨
      file.options.targetBlockSize ≤ count * 40 → 0 < count → size ≤ count) :
    (file.blocks.length - 1) * size ≤ file.rows.length := by
  let collected := file.rows.foldl SstBuilder.add (SstBuilder.init file.options)
  have filled : collected.options = file.options ∧
      collected.blocks.length * size ≤ collected.blocks.flatten.length := by
    refine foldlRecOn (motive := fun builder : SstBuilder => builder.options = file.options ∧
      builder.blocks.length * size ≤ builder.blocks.flatten.length) _ _
      ⟨rfl, by simp [SstBuilder.init]⟩ ?_
    rintro builder ⟨options, bound⟩ row _
    rw [SstBuilder.add]
    split
    case isTrue cutNow =>
      simp only [SstBuilder.shouldCutBlock, Bool.and_eq_true, Bool.or_eq_true,
        decide_eq_true_eq, options] at cutNow
      have enough := cut (builder.buffer ++ [row]).length cutNow.2 (by simp)
      rw [SstBuilder.flushBlock, if_neg (by simp)]
      refine ⟨options, ?_⟩
      simp only [length_append, length_singleton, flatten_append, flatten_cons, flatten_nil,
        append_nil, Nat.add_mul, Nat.one_mul] at enough ⊢
      omega
    case isFalse =>
      exact ⟨options, bound⟩
  have total := congrArg length file.flatten_blocks
  have last : file.blocks.length - 1 ≤ collected.blocks.length ∧
      collected.blocks.flatten.length ≤ file.blocks.flatten.length := by
    rw [blocks, builder, SstBuilder.flushBlock]
    split
    · exact ⟨Nat.sub_le _ _, Nat.le_refl _⟩
    · simp [collected]
  calc (file.blocks.length - 1) * size
      ≤ collected.blocks.length * size := Nat.mul_le_mul_right size last.1
    _ ≤ file.rows.length := by
        rw [← total]
        exact Nat.le_trans filled.2 last.2

end

end SstFile

end CedarGraph
