import CedarGraph.Sst.EntityIndex
import CedarGraph.Sst.Filter

/-!
# Reading an SST file

`SstReader` is what `ZoneColumnarSstReader` holds after `Open`, with a way to load the rows of a
block. `GetRange` is written once over it; `SstFile.reader` is the reader of a written file.
-/

namespace CedarGraph

open FixedWidth List

/-- The part of a block index entry that a search looks at. -/
structure BlockRange where
  range : KeyRange
  rowCount : Nat
  deriving DecidableEq, Repr

structure SstReader where
  range : KeyRange
  blockIndex : List BlockRange
  entityIndex : EntityBlocks
  bloomFilter : Bytes
  loadBlock : Nat → Option (List Row)

structure RangeQuery where
  entityId : UInt64
  entityType : EntityType
  columnId : UInt16
  start : UInt64
  stop : UInt64

/-- The row filter of `GetRange`: the vertex type and column `UINT16_MAX` accept
every type and every column. -/
def RangeQuery.accepts (query : RangeQuery) (row : Row) : Bool :=
  decide (row.key.entityId = query.entityId ∧
    (query.entityType.toByte = 0 ∨ row.key.entityType = query.entityType.toByte) ∧
    (query.columnId = uint16Max ∨ row.key.columnId = query.columnId) ∧
    query.start ≤ row.key.timestamp ∧ row.key.timestamp ≤ query.stop)

namespace SstReader

def mayContainEntity (reader : SstReader) (eid : UInt64) : Bool :=
  decide (reader.range.minEntityId ≤ eid ∧ eid ≤ reader.range.maxEntityId) &&
    BloomFilter.mayContain reader.bloomFilter eid

def scanBlock (reader : SstReader) (query : RangeQuery) (block : Nat) : List Row :=
  match reader.blockIndex[block]? with
  | none => []
  | some entry =>
    if query.stop < entry.range.minTimestamp ∨ entry.range.maxTimestamp < query.start then []
    else
      match reader.loadBlock block with
      | none => []
      | some rows => rows.filter query.accepts

/-- `std::lower_bound` over the block index for the first block whose largest
entity id is not below the given one. -/
def lowerBound (index : List BlockRange) (eid : UInt64) : Nat → Nat → Nat → Nat
  | 0, first, _ => first
  | fuel + 1, first, size =>
    if size = 0 then first
    else
      let half := size / 2
      match index[first + half]? with
      | none => first
      | some entry =>
        if entry.range.maxEntityId < eid then
          lowerBound index eid fuel (first + half + 1) (size - half - 1)
        else lowerBound index eid fuel first half

/-- The scan from a block on when the file has no entity index. -/
def scanFrom (reader : SstReader) (query : RangeQuery) : Nat → List BlockRange → List Row
  | _, [] => []
  | block, entry :: rest =>
    if query.entityId < entry.range.minEntityId then []
    else if entry.range.maxEntityId < query.entityId then
      scanFrom reader query (block + 1) rest
    else reader.scanBlock query block ++ scanFrom reader query (block + 1) rest

def getRange (sort : RowSort) (reader : SstReader) (query : RangeQuery) : List Row :=
  if reader.entityIndex.isEmpty then
    let pos := lowerBound reader.blockIndex query.entityId
      reader.blockIndex.length 0 reader.blockIndex.length
    let first := pos - 1
    sort.sort (reader.scanFrom query first (reader.blockIndex.drop first))
  else
    match reader.entityIndex.lookup query.entityId with
    | none => []
    | some blocks => sort.sort (blocks.flatMap (reader.scanBlock query))

end SstReader

/-- Offsets have 32 bits.  Of a file that may reach beyond 4 GiB it is not known what is read, and
no block of it is loaded here. -/
def SstFile.reader (file : SstFile) : SstReader where
  range := KeyRange.ofRows file.rows
  blockIndex := file.blocks.map fun block => ⟨KeyRange.ofRows block, block.length⟩
  entityIndex := parseEntityIndex (encodeEntityIndex file.entityBlocks)
  bloomFilter :=
    if file.rows.isEmpty then []
    else BloomFilter.build file.rows.length (file.rows.map (·.key.entityId))
  loadBlock := fun block => if file.sizeBound < 2 ^ 32 then file.blocks[block]? else none

namespace SstFile

variable {file : SstFile} {alpha : Type}

theorem mayContainEntity_of_mem {row : Row} (mem : row ∈ file.rows) :
    file.reader.mayContainEntity row.key.entityId = true := by
  have covered := KeyRange.covers_ofRows mem
  have notEmpty : file.rows.isEmpty = false := by
    cases rowsEq : file.rows with
    | nil =>
      rw [rowsEq] at mem
      cases mem
    | cons first rest => rfl
  have inFilter := BloomFilter.mayContain_build file.rows.length (mem_map.mpr ⟨row, mem, rfl⟩ :
      row.key.entityId ∈ file.rows.map fun row => row.key.entityId)
  rw [SstReader.mayContainEntity, reader, notEmpty, Bool.and_eq_true, decide_eq_true_eq]
  exact ⟨⟨covered.minEntity, covered.maxEntity⟩, inFilter⟩

theorem loadBlock_reader (fits : file.sizeBound < 2 ^ 32) (id : Nat) :
    file.reader.loadBlock id = file.blocks[id]? :=
  if_pos fits

theorem scanBlock_reader (fits : file.sizeBound < 2 ^ 32) (query : RangeQuery) (id : Nat) :
    file.reader.scanBlock query id = ((file.blocks[id]?).getD []).filter query.accepts := by
  rw [SstReader.scanBlock, loadBlock_reader fits, reader, getElem?_map]
  cases found : file.blocks[id]? with
  | none => rfl
  | some block =>
    rw [Option.map_some, Option.getD_some]
    dsimp only
    split
    case isTrue outside =>
      symm
      refine filter_eq_nil_iff.mpr ?_
      intro row mem accepted
      have covered := KeyRange.covers_ofRows mem
      have minTime := covered.minTime
      have maxTime := covered.maxTime
      simp only [RangeQuery.accepts, decide_eq_true_eq] at accepted
      have lower := accepted.2.2.2.1
      have upper := accepted.2.2.2.2
      rw [UInt64.le_iff_toNat_le] at minTime maxTime lower upper
      rw [UInt64.lt_iff_toNat_lt, UInt64.lt_iff_toNat_lt] at outside
      omega
    case isFalse =>
      rfl

private theorem flatMap_filter_nonempty (cells : Nat → List alpha) (ids : List Nat) :
    (ids.filter fun id => !(cells id).isEmpty).flatMap cells = ids.flatMap cells := by
  induction ids with
  | nil => rfl
  | cons head tail ih =>
    by_cases empty : (cells head).isEmpty = true
    · rw [filter_cons_of_neg (by simpa using empty), ih,
        flatMap_cons, isEmpty_iff.mp empty, nil_append]
    · rw [filter_cons_of_pos (by simpa using empty), flatMap_cons, flatMap_cons, ih]

private theorem flatMap_perm_of_nodup (cells : Nat → List alpha) {left right : List Nat}
    (leftNodup : left.Nodup) (rightNodup : right.Nodup)
    (agree : ∀ id, cells id ≠ [] → (id ∈ left ↔ id ∈ right)) :
    (left.flatMap cells).Perm (right.flatMap cells) := by
  rw [← flatMap_filter_nonempty cells left, ← flatMap_filter_nonempty cells right]
  apply List.Perm.flatMap_right
  rw [perm_ext_iff_of_nodup (leftNodup.filter _) (rightNodup.filter _)]
  intro id
  rw [mem_filter, mem_filter]
  constructor
  · rintro ⟨mem, nonempty⟩
    exact ⟨(agree id (by simpa using nonempty)).mp mem, nonempty⟩
  · rintro ⟨mem, nonempty⟩
    exact ⟨(agree id (by simpa using nonempty)).mpr mem, nonempty⟩

private theorem filter_flatten_eq_flatMap (keep : alpha → Bool) (blocks : List (List alpha)) :
    blocks.flatten.filter keep =
      (List.range blocks.length).flatMap fun id => ((blocks[id]?).getD []).filter keep := by
  have enumerated :
      blocks = (range blocks.length).map fun id => (blocks[id]?).getD [] := by
    apply ext_getElem
    · simp
    · intro id lt _
      simp [lt]
  conv_lhs => rw [enumerated]
  rw [filter_flatten, map_map, flatMap]
  rfl

private theorem blocks_eq_nil (empty : file.entityBlocks = []) :
    file.rows = [] ∧ file.blocks = [] := by
  have noRows : file.rows = [] := by
    refine eq_nil_iff_forall_not_mem.mpr ?_
    intro row mem
    have present := (file.isSome_lookup_entityBlocks row.key.entityId).mpr ⟨row, mem, rfl⟩
    rw [empty] at present
    cases present
  refine ⟨noRows, eq_nil_iff_forall_not_mem.mpr ?_⟩
  intro block mem
  have nonempty := file.valid_builder.nonempty block mem
  obtain ⟨row, rowMember⟩ := exists_mem_of_ne_nil block nonempty
  have inRows := mem_flatten.mpr ⟨block, mem, rowMember⟩
  rw [flatten_blocks, noRows] at inRows
  cases inRows

theorem getRange_perm (sort : RowSort) (indexable : file.Indexable) (query : RangeQuery) :
    (file.reader.getRange sort query).Perm (file.rows.filter query.accepts) := by
  have index : file.reader.entityIndex = file.entityBlocks := parse_entityIndex indexable
  have cells : file.reader.scanBlock query =
      fun id => ((file.blocks[id]?).getD []).filter query.accepts :=
    funext (scanBlock_reader indexable.offsets query)
  have noRows : file.entityBlocks.lookup query.entityId = none →
      file.rows.filter query.accepts = [] := by
    intro missing
    refine filter_eq_nil_iff.mpr ?_
    intro row mem accepted
    simp only [RangeQuery.accepts, decide_eq_true_eq] at accepted
    have present := (file.isSome_lookup_entityBlocks query.entityId).mpr ⟨row, mem, accepted.1⟩
    rw [missing] at present
    cases present
  rw [SstReader.getRange, index]
  by_cases empty : file.entityBlocks.isEmpty = true
  · obtain ⟨noFileRows, noBlocks⟩ := blocks_eq_nil (isEmpty_iff.mp empty)
    have noIndex : file.reader.blockIndex = [] := by
      rw [reader, noBlocks]
      rfl
    rw [if_pos empty, noIndex, noFileRows]
    exact sort.perm _
  · rw [if_neg empty]
    cases found : file.entityBlocks.lookup query.entityId with
    | none => rw [noRows found]
    | some ids =>
      refine (sort.perm _).trans ?_
      have listed := file.mem_entityBlocks query.entityId
      have nodup := file.nodup_entityBlocks query.entityId
      rw [found, Option.getD_some] at nodup
      rw [found, Option.getD_some] at listed
      rw [← file.flatten_blocks, filter_flatten_eq_flatMap, cells]
      apply flatMap_perm_of_nodup _ nodup nodup_range
      intro id nonempty
      rw [mem_range]
      cases block : file.blocks[id]? with
      | none =>
        rw [block] at nonempty
        exact absurd rfl nonempty
      | some rows =>
        rw [block, Option.getD_some] at nonempty
        obtain ⟨row, rowMember⟩ := exists_mem_of_ne_nil _ nonempty
        rcases mem_filter.mp rowMember with ⟨inBlock, accepted⟩
        simp only [RangeQuery.accepts, decide_eq_true_eq] at accepted
        have lt := (List.getElem?_eq_some_iff.mp block).1
        exact iff_of_true ((listed id).mpr ⟨rows, block, row, inBlock, accepted.1⟩) lt

end SstFile

end CedarGraph
