import CedarGraph.Memtable
import CedarGraph.Compaction.State

/-!
# The storage engine: writes, flushes and time-travel reads

`LsmEngine` holds its versions in the active memtable, the rotated memtable, the accumulated
buffer and the SST files; flushes move rows down, and `GetAtTime` asks the four in turn. Whether
an SST file can be written is an argument. The write-ahead log and the secondary indexes are not
part of this state; compactions run in the background, as steps of `Engine.Compacted`.
-/

namespace CedarGraph

open FixedWidth

/-- The comparison that orders the results of `GetAll`: later timestamps first, then
entries with a target, by target. -/
def listedBefore (left right : Row) : Bool :=
  if left.key.timestamp ≠ right.key.timestamp then
    decide (right.key.timestamp < left.key.timestamp)
  else if left.key.targetId ≠ 0 ∧ right.key.targetId ≠ 0 then
    decide (left.key.targetId < right.key.targetId)
  else decide (left.key.targetId ≠ 0 ∧ right.key.targetId = 0)

/-- The relation by which `GetAll` drops neighbouring duplicates. -/
def sameVersion (left right : Row) : Prop :=
  left.key.timestamp = right.key.timestamp ∧ left.key.targetId = right.key.targetId

instance (left right : Row) : Decidable (sameVersion left right) :=
  inferInstanceAs (Decidable (_ ∧ _))

/-- `std::sort` with `listedBefore`. -/
structure EntrySort where
  sort : List Row → List Row
  perm : ∀ rows, (sort rows).Perm rows
  sorted : ∀ rows, (sort rows).Pairwise fun prev later =>
    listedBefore later prev = false

section InsertionSort

private def listedAt (row : Row) : ℕ ×ₗ ℕ ×ₗ ℕ :=
  toLex (2 ^ 64 - row.key.timestamp.toNat,
    toLex (if row.key.targetId = 0 then 1 else 0, row.key.targetId.toNat))

private theorem listedBefore_iff (left right : Row) :
    listedBefore left right = true ↔ listedAt left < listedAt right := by
  have leftBound := left.key.timestamp.toNat_lt
  have rightBound := right.key.timestamp.toNat_lt
  rw [listedBefore, listedAt, listedAt, Prod.Lex.toLex_lt_toLex, Prod.Lex.toLex_lt_toLex]
  by_cases sameTime : left.key.timestamp = right.key.timestamp
  · by_cases leftNone : left.key.targetId = 0
    · by_cases rightNone : right.key.targetId = 0
      · simp [sameTime, leftNone, rightNone]
      · simp [sameTime, leftNone, rightNone]
    · by_cases rightNone : right.key.targetId = 0
      · simp [sameTime, leftNone, rightNone]
      · simp [sameTime, leftNone, rightNone, UInt64.lt_iff_toNat_lt]
  · have ne : left.key.timestamp.toNat ≠ right.key.timestamp.toNat := by
      rwa [ne_eq, UInt64.toNat_inj]
    rw [if_pos sameTime, decide_eq_true_eq, UInt64.lt_iff_toNat_lt]
    constructor
    · intro later
      exact Or.inl (by omega)
    · intro before
      rcases before with prev | same
      · omega
      · exact absurd same.1 (by omega)

theorem sameVersion_of_not_listedBefore
    {left right : Row} (notBefore : listedBefore left right = false)
    (notAfter : listedBefore right left = false) : sameVersion left right := by
  have leftBound := left.key.timestamp.toNat_lt
  have rightBound := right.key.timestamp.toNat_lt
  rw [← Bool.not_eq_true, listedBefore_iff, not_lt] at notBefore notAfter
  have samePlace : listedAt left = listedAt right := le_antisymm notAfter notBefore
  have sameParts := Prod.ext_iff.mp (toLex.injective samePlace)
  have sameTarget := Prod.ext_iff.mp (toLex.injective sameParts.2)
  refine ⟨UInt64.toNat_inj.mp ?_, UInt64.toNat_inj.mp sameTarget.2⟩
  have sameTime := sameParts.1
  dsimp only at sameTime
  omega

private def NotListedAfter (prev later : Row) : Prop :=
  listedBefore later prev = false

private instance : DecidableRel NotListedAfter := fun _ _ => inferInstanceAs (Decidable (_ = _))

private theorem notListedAfter_iff {prev later : Row} :
    NotListedAfter prev later ↔ listedAt prev ≤ listedAt later := by
  rw [NotListedAfter, ← Bool.not_eq_true, listedBefore_iff, not_lt]

private instance : Std.Total NotListedAfter where
  total left right := by
    rw [notListedAfter_iff, notListedAfter_iff]
    exact le_total (listedAt left) (listedAt right)

private instance : IsTrans Row NotListedAfter where
  trans _ _ _ first second := by
    rw [notListedAfter_iff] at first second ⊢
    exact first.trans second

def EntrySort.byInsertion : EntrySort where
  sort := List.insertionSort NotListedAfter
  perm := List.perm_insertionSort NotListedAfter
  sorted := List.pairwise_insertionSort NotListedAfter

end InsertionSort

/-- Options, and two quantities that the platform and the file format determine:
the memory that `ApproximateMemoryUsage` charges for the list and for a node, and
the size of a written file. -/
structure LsmOptions where
  memtableThreshold : Nat
  listBytes : Nat
  nodeBytes : Nat
  enableAccumulatedFlush : Bool
  accumulatedFlushBytes : Nat
  compactionConfig : SizeTieredConfig
  rowSort : RowSort
  entrySort : EntrySort
  sstFileSize : SstFile → Nat

def LsmOptions.default : LsmOptions where
  memtableThreshold := 4 * 2 ^ 20
  listBytes := 128
  nodeBytes := 112
  enableAccumulatedFlush := true
  accumulatedFlushBytes := 64 * 2 ^ 20
  compactionConfig := .default
  rowSort := .byInsertion
  entrySort := .byInsertion
  sstFileSize file := 128 + 48 * file.rows.length

structure LsmEngine where
  mem : VSLMemTable
  imm : Option VSLMemTable
  accumulatedEntries : List Row
  accumulatedBytes : Nat
  level0 : List ZoneSstMeta
  compactionEngine : CompactionEngine
  disk : Nat → Option SstFile
  nextFileNumber : Nat
  flushActive : Bool

namespace LsmEngine

variable (opts : LsmOptions) (eng : LsmEngine)

def init : LsmEngine :=
  { mem := .empty
    imm := none
    accumulatedEntries := []
    accumulatedBytes := 0
    level0 := []
    compactionEngine := .init opts.compactionConfig
    disk := fun _ => none
    nextFileNumber := 1
    flushActive := false }

/-- The blob files that the external references of the rows point into; file 0 is
not recorded. -/
def referencedBlobFiles (rows : List Row) : List Nat :=
  ((rows.filter fun row => decide (row.descriptor.getKind = .externalRef)).map
    fun row => row.descriptor.blobFileId).filter fun blob => decide (0 < blob)

/-- The metadata of a flushed file, the same for both engines except that only
one of the two carries the temporal filter. -/
def flushMeta (number : Nat) (rows : List Row) (temporalFilter : Option Bytes) : ZoneSstMeta :=
  { fileNumber := number
    fileSize := opts.sstFileSize ⟨.default, opts.rowSort.sort rows⟩
    numEntries := rows.length
    level := 0
    range := KeyRange.ofRows rows
    columnId := uint16Max
    entityType := 0
    blobFileNumber := 0
    referencedBlobFiles := referencedBlobFiles rows
    temporalFilter := temporalFilter }

/-- The successful end of a flush: the sorted rows are on disk and both engines
list the file.  The compaction that `AddSSTFile` schedules is a step of its own. -/
def installFile (rows : List Row) (engineFilter zoneFilter : Option Bytes) : LsmEngine :=
  let number := eng.nextFileNumber
  { eng with
    level0 := eng.level0 ++ [flushMeta opts number rows engineFilter]
    compactionEngine := eng.compactionEngine.addSSTFile opts.compactionConfig
      (flushMeta opts number rows zoneFilter)
    disk := Function.update eng.disk number (some ⟨.default, opts.rowSort.sort rows⟩)
    nextFileNumber := number + 1 }

def temporalFilterOf (rows : List Row) : Option Bytes :=
  some (TemporalFilter.build (rows.map fun row => row.key.entityId))

/-- `FlushAccumulated`: the buffer is emptied before the file is written. -/
def flushAccumulated (written : Bool) : LsmEngine × Bool :=
  if eng.accumulatedEntries.isEmpty then (eng, true)
  else
    let rows := eng.accumulatedEntries
    let emptied := { eng with accumulatedEntries := [], accumulatedBytes := 0 }
    if written then (emptied.installFile opts rows none (temporalFilterOf rows), true)
    else ({ emptied with nextFileNumber := eng.nextFileNumber + 1 }, false)

def flushEntriesToSST (rows : List Row) (written : Bool) : LsmEngine × Bool :=
  if rows.isEmpty then (eng, true)
  else if written then (eng.installFile opts rows (temporalFilterOf rows) none, true)
  else ({ eng with nextFileNumber := eng.nextFileNumber + 1 }, false)

def accumulate (rows : List Row) : LsmEngine :=
  { eng with
    accumulatedEntries := eng.accumulatedEntries ++ rows
    accumulatedBytes := eng.accumulatedBytes + rows.length * 40 }

def flushMemTable (mem : VSLMemTable) (written : Bool) : LsmEngine × Bool :=
  if mem.isEmpty then (eng, true)
  else
    let rows := mem.traverse
    if opts.enableAccumulatedFlush then
      let collected := eng.accumulate rows
      if opts.accumulatedFlushBytes ≤ collected.accumulatedBytes then
        collected.flushAccumulated opts written
      else (collected, true)
    else eng.flushEntriesToSST opts rows written

/-- Three attempts; `written n` is the outcome of the file write of attempt `n`. -/
def flushMemTableWithRetry (mem : VSLMemTable) (written : Nat → Bool) : LsmEngine × Bool :=
  let first := eng.flushMemTable opts mem (written 1)
  if first.2 then first
  else
    let second := first.1.flushMemTable opts mem (written 2)
    if second.2 then second else second.1.flushMemTable opts mem (written 3)

/-- Flush `imm_` and drop it when that succeeded. -/
def flushImm (written : Nat → Bool) : LsmEngine × Bool :=
  match eng.imm with
  | none => (eng, true)
  | some imm =>
    let flushed := eng.flushMemTableWithRetry opts imm written
    if flushed.2 then ({ flushed.1 with imm := none }, true) else flushed

/-- The background flush started by `MaybeScheduleFlush` runs to its end. -/
def finishBackgroundFlush (written : Nat → Bool) : LsmEngine :=
  if eng.flushActive then
    { (eng.flushImm opts written).1 with flushActive := false }
  else eng

def rotate : LsmEngine :=
  { eng with imm := some eng.mem, mem := .empty }

/-- `ForceFlush`: wait for the background flush, retry an `imm_` left over from a
failed one, then rotate and flush the active memtable. -/
def forceFlush (background leftover cur : Nat → Bool) : LsmEngine :=
  let waited := eng.finishBackgroundFlush opts background
  let retried := waited.flushImm opts leftover
  if retried.2 then
    if retried.1.mem.isEmpty then retried.1
    else (retried.1.rotate.flushImm opts cur).1
  else retried.1

/-- `MaybeScheduleFlush`: rotate when the lock is free and no rotated memtable is
waiting; a background flush is started. -/
def maybeScheduleFlush (lockFree : Bool) : LsmEngine :=
  if lockFree && !eng.imm.isSome && !eng.mem.isEmpty then
    { eng.rotate with flushActive := true }
  else eng

def put (row : Row) (lockFree : Bool) : LsmEngine :=
  let written := { eng with mem := eng.mem.put row }
  if opts.memtableThreshold ≤ opts.listBytes + written.mem.size * opts.nodeBytes then
    written.maybeScheduleFlush lockFree
  else written

/-- `QueryAccumulatedBuffer`: a later entry replaces the candidate only when its
timestamp is strictly larger. -/
def queryAccumulatedBuffer (id : UInt64)
    (kind : EntityType) (col : UInt16) (ts : UInt64) : Option Row :=
  eng.accumulatedEntries.foldl
    (fun best row =>
      if row.key.entityId = id ∧ row.key.entityType = kind.toByte ∧
          row.key.columnId = col ∧ row.key.timestamp ≤ ts ∧
          (∀ cur ∈ best, cur.key.timestamp < row.key.timestamp) then
        some row
      else best)
    none

/-- Read one listed file; a file that cannot be opened yields nothing. -/
def readFile (query : RangeQuery) (file : ZoneSstMeta) : List Row :=
  match eng.disk file.fileNumber with
  | none => []
  | some sst =>
    if sst.reader.mayContainEntity query.entityId then
      sst.reader.getRange opts.rowSort query
    else []

def passesTemporalFilter (id : UInt64) (file : ZoneSstMeta) : Bool :=
  match file.temporalFilter with
  | none => true
  | some data => TemporalFilter.mayContain data id

/-- The entries collected from SST files: those of the compaction engine's files,
or, when there are none, those of the files the storage engine lists itself. -/
def sstEntries (query : RangeQuery) : List Row :=
  let files := (eng.compactionEngine.getFilesForEntity query.entityId query.columnId
    query.entityType.toByte).filter (passesTemporalFilter query.entityId)
  let entries := files.flatMap (eng.readFile opts query)
  if entries.isEmpty then
    (eng.level0.filter (CompactionEngine.fileMatches query.entityId query.columnId
      query.entityType.toByte)).flatMap (eng.readFile opts query)
  else entries

/-- The loop that selects the best entry: not after the query time and not older
than the best so far. -/
def selectBest (ts : UInt64) (entries : List Row) : Option Descriptor :=
  (entries.foldl
    (fun best row =>
      if row.key.timestamp ≤ ts ∧ best.2 ≤ row.key.timestamp then
        (some row.descriptor, row.key.timestamp)
      else best)
    ((none : Option Descriptor), (0 : UInt64))).1

def getAtTime (id : UInt64) (kind : EntityType) (col : UInt16) (ts : UInt64) : Option Descriptor :=
  match eng.mem.getAtTime id kind col ts with
  | some desc => some desc
  | none =>
    match eng.imm.bind fun imm => imm.getAtTime id kind col ts with
    | some desc => some desc
    | none =>
      match eng.queryAccumulatedBuffer id kind col ts with
      | some row => some row.descriptor
      | none =>
        selectBest ts (eng.sstEntries opts ⟨id, kind, col, 0, uint64Max⟩)

/-- `GetAll`: the versions of every layer, ordered, without neighbouring duplicates. -/
def getAll (id : UInt64) (kind : EntityType) (col : UInt16) : List Row :=
  let memRows := eng.mem.getVersionChain id kind col
  let immRows := (eng.imm.map fun imm =>
    imm.getVersionChain id kind col).getD []
  let buffered := eng.accumulatedEntries.filter fun row =>
    decide (row.key.entityId = id ∧ row.key.entityType = kind.toByte ∧ row.key.columnId = col)
  let files := eng.compactionEngine.getFilesForEntity id col kind.toByte
  let fileRows := files.flatMap fun file =>
    ((eng.disk file.fileNumber).map fun sst =>
      sst.reader.getRange opts.rowSort ⟨id, kind, col, 0, uint64Max⟩).getD []
  (opts.entrySort.sort (memRows ++ immRows ++ buffered ++ fileRows)).destutter
    fun kept next => ¬ sameVersion kept next

end LsmEngine

end CedarGraph
