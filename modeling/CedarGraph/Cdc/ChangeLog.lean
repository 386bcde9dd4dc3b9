import CedarGraph.Types
import CedarGraph.Lib.Runs

/-!
# The change log of a partition

Committed changes are appended to segment files, a frame for each record, and kept in memory for
readers. An append that fails in the middle leaves its first records in both places, but not the
watermark. The serialized size of a record is a parameter, since the encoding is not part of the
repository.
-/

namespace CedarGraph

open FixedWidth

inductive ChangeOperation where
  | unspecified
  | create
  | update
  | delete
  deriving DecidableEq, Repr

structure ChangeRecord where
  partitionId : UInt32
  partitionEpoch : UInt64
  offset : Nat
  commitVersion : UInt64
  txnId : UInt64
  batchIndex : Nat
  batchSize : Nat
  entityId : UInt64
  targetId : UInt64
  entityType : UInt32
  edgeType : UInt32
  columnId : UInt32
  operation : ChangeOperation
  validFrom : UInt64
  validTo : UInt64
  payload : Bytes
  deriving DecidableEq, Repr

structure ChangeLogOptions where
  partitionId : UInt32
  partitionEpoch : UInt64
  maxSegmentBytes : Nat
  maxFetchRecords : Nat
  maxFetchBytes : Nat
  serializedSize : ChangeRecord → Nat

/-- The frame of a record: a header of 16 bytes and the serialized record. -/
def ChangeLogOptions.frameSize (opts : ChangeLogOptions) (rec : ChangeRecord) : Nat :=
  16 + opts.serializedSize rec

/-- A segment file holds frames; a write that failed may have left part of one. -/
inductive SegmentPiece where
  | frame (record : ChangeRecord)
  | torn
  deriving DecidableEq, Repr

/-- Segment files are named by their first offset. -/
structure SegmentFile where
  name : Nat
  pieces : List SegmentPiece
  deriving DecidableEq, Repr

def SegmentFile.append (file : SegmentFile) (piece : SegmentPiece) : SegmentFile :=
  { file with pieces := file.pieces ++ [piece] }

structure SegmentRange where
  name : Nat
  firstOffset : Nat
  lastOffset : Nat
  bytes : Nat
  deriving DecidableEq, Repr

structure ChangeLogManifest where
  partitionId : UInt32
  partitionEpoch : UInt64
  earliestOffset : Nat
  highWatermark : Nat
  committedVersion : UInt64
  segments : List SegmentRange
  deriving DecidableEq, Repr

/-- The directory of a log.  The snapshot file holds records; there are none when it does
not exist. -/
structure ChangeLogDisk where
  segments : List SegmentFile
  snapshot : List ChangeRecord
  manifest : Option ChangeLogManifest
  deriving DecidableEq, Repr

namespace ChangeLogDisk

variable (disk : ChangeLogDisk)

def segment (name : Nat) : Option SegmentFile :=
  disk.segments.find? fun file => file.name = name

def write (name : Nat) (piece : SegmentPiece) : ChangeLogDisk :=
  { disk with
    segments :=
      if disk.segments.any fun file => file.name = name then
        disk.segments.map fun file => if file.name = name then file.append piece else file
      else disk.segments ++ [⟨name, [piece]⟩] }

def create (name : Nat) : ChangeLogDisk :=
  if disk.segments.any fun file => file.name = name then disk
  else { disk with segments := disk.segments ++ [⟨name, []⟩] }

def names : List Nat :=
  (disk.segments.map SegmentFile.name).insertionSort (· ≤ ·)

end ChangeLogDisk

structure PartitionChangeLog where
  records : List ChangeRecord
  snapshotRecords : List ChangeRecord
  earliestOffset : Nat
  highWatermark : Nat
  committedVersion : UInt64
  segmentNames : List Nat
  activeSegmentFirstOffset : Nat
  activeSegmentSize : Nat
  disk : ChangeLogDisk
  deriving DecidableEq, Repr

/-- What a failed write leaves: the segment file was not opened, it was created but not
written, it holds part of the frame, or the whole frame when only the synchronization of the
file or of the directory failed. -/
inductive FrameOutcome where
  | written
  | refused
  | created
  | torn
  | unsynced
  | unlisted
  deriving DecidableEq, Repr

inductive ChangeLogEvent where
  | appendFrame (record : ChangeRecord) (outcome : FrameOutcome)
  | advance (count : Nat) (commitVersion : UInt64)
  | persistSnapshot
  | persistManifest (manifest : ChangeLogManifest)
  deriving DecidableEq, Repr

namespace PartitionChangeLog

variable (opts : ChangeLogOptions)

/-- One round of the loop of `ReadSegmentRange`, which accepts whole frames only. -/
def extendRange (range : SegmentRange) : SegmentPiece → Except Status SegmentRange
  | .torn => .error (.corruption "PartitionChangeLog" "invalid segment for manifest")
  | .frame rec =>
    .ok { range with
      firstOffset := if range.firstOffset = 0 then rec.offset else range.firstOffset
      lastOffset := rec.offset
      bytes := range.bytes + opts.frameSize rec }

def readSegmentRange (pieces : List SegmentPiece) (name : Nat) : Except Status SegmentRange :=
  pieces.foldlM (extendRange opts) ⟨name, 0, 0, 0⟩

variable (disk : ChangeLogDisk)

def segmentRange (name : Nat) : Except Status SegmentRange :=
  match disk.segment name with
  | none => .error (.ioError "PartitionChangeLog" "cannot open segment")
  | some file => readSegmentRange opts file.pieces name

variable (log : PartitionChangeLog)

/-- `PersistManifestLocked` up to the file write: the listed segments, or all segments
of the directory when none is listed. -/
def makeManifest : Except Status ChangeLogManifest :=
  let names := if log.segmentNames.isEmpty then log.disk.names
    else log.segmentNames.insertionSort (· ≤ ·)
  match names.mapM (segmentRange opts log.disk) with
  | .error status => .error status
  | .ok ranges =>
    .ok ⟨opts.partitionId, opts.partitionEpoch, log.earliestOffset, log.highWatermark,
      log.committedVersion, ranges⟩

/-- The segment that `AppendRecordFrame` writes to. -/
def selectSegment (rec : ChangeRecord) : PartitionChangeLog :=
  let rolled :=
    if 0 < log.activeSegmentSize ∧
        opts.maxSegmentBytes < log.activeSegmentSize + opts.frameSize rec then
      { log with activeSegmentFirstOffset := rec.offset, activeSegmentSize := 0 }
    else log
  if rolled.activeSegmentSize = 0 ∧
      rolled.activeSegmentFirstOffset ∉ rolled.segmentNames then
    { rolled with segmentNames := rolled.segmentNames ++ [rolled.activeSegmentFirstOffset] }
  else rolled

def appendFrame (rec : ChangeRecord) (outcome : FrameOutcome) : PartitionChangeLog :=
  let selected := log.selectSegment opts rec
  let name := selected.activeSegmentFirstOffset
  let counted := selected.activeSegmentSize + opts.frameSize rec
  match outcome with
  | .written =>
    { selected with
      records := selected.records ++ [rec]
      snapshotRecords := selected.snapshotRecords ++ [rec]
      activeSegmentSize := counted
      disk := selected.disk.write name (.frame rec) }
  | .refused => selected
  | .created => { selected with disk := selected.disk.create name }
  | .torn => { selected with disk := selected.disk.write name .torn }
  | .unsynced => { selected with disk := selected.disk.write name (.frame rec) }
  | .unlisted =>
    { selected with
      activeSegmentSize := counted
      disk := selected.disk.write name (.frame rec) }

def apply : ChangeLogEvent → PartitionChangeLog
  | .appendFrame rec outcome => log.appendFrame opts rec outcome
  | .advance count ver =>
    { log with
      highWatermark := log.highWatermark + count
      committedVersion := max log.committedVersion ver
      earliestOffset :=
        if log.earliestOffset = 0 then (log.records.head?.map ChangeRecord.offset).getD 0
        else log.earliestOffset }
  | .persistSnapshot => { log with disk := { log.disk with snapshot := log.snapshotRecords } }
  | .persistManifest manifest => { log with disk := { log.disk with manifest := some manifest } }

/-- The fields that `AppendCommittedBatch` sets; `first` is the offset of the first record. -/
def stamp (first : Nat) (ver : UInt64) (recs : List ChangeRecord) : List ChangeRecord :=
  recs.mapIdx fun index rec =>
    { rec with
      partitionId := opts.partitionId
      partitionEpoch := opts.partitionEpoch
      offset := first + index
      commitVersion := ver
      batchIndex := index % 2 ^ 32
      batchSize := recs.length % 2 ^ 32 }

structure AppendOutcome where
  frames : Nat → FrameOutcome
  snapshotPersisted : Bool
  manifestPersisted : Bool

/-- The loop over the records stops at the first frame that fails. -/
def appendFrames (outs : Nat → FrameOutcome) : Nat → List ChangeRecord → List ChangeLogEvent × Bool
  | _, [] => ([], true)
  | index, rec :: rest =>
    if outs index = .written then
      let (events, complete) := appendFrames outs (index + 1) rest
      (.appendFrame rec .written :: events, complete)
    else ([.appendFrame rec (outs index)], false)

/-- The effects of `AppendCommittedBatch` and its result. -/
def appendCommittedBatch (ver : UInt64) (recs : List ChangeRecord) (outcome : AppendOutcome) :
    List ChangeLogEvent × Except Status Unit :=
  let (frames, complete) :=
    appendFrames outcome.frames 0 (stamp opts (log.highWatermark + 1) ver recs)
  if complete then
    let advanced := frames ++
      if recs.isEmpty then [] else [.advance recs.length ver]
    if outcome.snapshotPersisted then
      let events := advanced ++ [.persistSnapshot]
      match (Runs.run (apply opts) log events).makeManifest opts with
      | .error status => (events, .error status)
      | .ok manifest =>
        if outcome.manifestPersisted then (events ++ [.persistManifest manifest], .ok ())
        else (events, .error (.ioError "write" "manifest"))
    else (advanced, .error (.ioError "write" "snapshot"))
  else (frames, .error (.ioError "write" "segment"))

/-- The loop of `ReadAfter` over the records. -/
def readPage (offset limitRecords limitBytes : Nat) :
    List ChangeRecord → List ChangeRecord → Nat → List ChangeRecord
  | [], out, _ => out
  | rec :: rest, out, bytes =>
    if rec.offset ≤ offset then readPage offset limitRecords limitBytes rest out bytes
    else
      let size := opts.serializedSize rec
      if out ≠ [] ∧ limitBytes < bytes + size then out
      else if out = [] ∧ limitBytes < size then out
      else if limitRecords ≤ (out ++ [rec]).length then out ++ [rec]
      else readPage offset limitRecords limitBytes rest (out ++ [rec]) (bytes + size)

def readAfter (offset limitRecords limitBytes : Nat) : List ChangeRecord :=
  let effectiveRecords := min limitRecords opts.maxFetchRecords
  let effectiveBytes := min limitBytes opts.maxFetchBytes
  if effectiveRecords = 0 ∨ effectiveBytes = 0 then []
  else readPage opts offset effectiveRecords effectiveBytes log.records [] 0

structure LogScan where
  records : List ChangeRecord
  highWatermark : Nat
  committedVersion : UInt64
  expectedOffset : Nat
  lastSegmentFirstOffset : Nat
  truncated : Bool

structure SegmentScan where
  firstOffset : Nat
  lastOffset : Nat
  validBytes : Nat

def corruption (msg : String) : Status :=
  .corruption "PartitionChangeLog" msg

/-- The loop over the frames of one segment.  A torn frame is tolerated only at the end
of the last segment, and only when the manifest does not know of more records. -/
def scanSegment (isLast : Bool) (manifest : Option ChangeLogManifest) :
    List SegmentPiece → LogScan → SegmentScan → Except Status (LogScan × SegmentScan)
  | [], scan, segment => .ok (scan, segment)
  | .torn :: rest, scan, segment =>
    if rest ≠ [] then .error (corruption "invalid frame header")
    else if !isLast ∨ ∃ known ∈ manifest, scan.expectedOffset < known.highWatermark then
      .error (corruption "partial frame before log tail")
    else .ok ({ scan with truncated := true }, segment)
  | .frame rec :: rest, scan, segment =>
    if rec.partitionId ≠ opts.partitionId ∨
        rec.partitionEpoch ≠ opts.partitionEpoch then
      .error (corruption "record partition metadata mismatch")
    else if scan.expectedOffset ≠ 0 ∧ rec.offset ≠ scan.expectedOffset then
      .error (corruption "offset gap")
    else
      let isFirst := segment.validBytes = 0
      scanSegment isLast manifest rest
        { scan with
          records := scan.records ++ [rec]
          highWatermark := rec.offset
          committedVersion := max scan.committedVersion rec.commitVersion
          expectedOffset := rec.offset + 1
          lastSegmentFirstOffset :=
            if isFirst then rec.offset else scan.lastSegmentFirstOffset }
        { firstOffset := if isFirst then rec.offset else segment.firstOffset
          lastOffset := rec.offset
          validBytes := segment.validBytes + opts.frameSize rec }

/-- The check of a scanned segment against its line in the manifest. -/
def matchesManifest (isLast : Bool) (manifest : ChangeLogManifest) (expected : SegmentRange)
    (scan : LogScan) (segment : SegmentScan) : Bool :=
  let allowTruncated := scan.truncated && isLast &&
    decide (manifest.highWatermark = scan.expectedOffset)
  segment.firstOffset = expected.firstOffset &&
    (allowTruncated ||
      (segment.validBytes = expected.bytes && segment.lastOffset = expected.lastOffset))

def scanListed (manifest : ChangeLogManifest) (disk : ChangeLogDisk) :
    List SegmentRange → LogScan → Except Status LogScan
  | [], scan => .ok scan
  | expected :: rest, scan =>
    match disk.segment expected.name with
    | none => .error (corruption "manifest segment missing")
    | some file =>
      match scanSegment opts rest.isEmpty (some manifest) file.pieces scan ⟨0, 0, 0⟩ with
      | .error status => .error status
      | .ok (scanned, segment) =>
        if matchesManifest rest.isEmpty manifest expected scanned segment then
          scanListed manifest disk rest scanned
        else .error (corruption "manifest segment range mismatch")

def scanUnlisted (disk : ChangeLogDisk) : List Nat → LogScan → Except Status LogScan
  | [], scan => .ok scan
  | name :: rest, scan =>
    match disk.segment name with
    | none => .error (.ioError "PartitionChangeLog" "cannot open segment")
    | some file =>
      match scanSegment opts rest.isEmpty none file.pieces scan ⟨0, 0, 0⟩ with
      | .error status => .error status
      | .ok (scanned, _) => scanUnlisted disk rest scanned

/-- `TruncateFile` removes the torn frame at the end of a segment. -/
def truncateTorn (name : Nat) : ChangeLogDisk :=
  { disk with
    segments := disk.segments.map fun file =>
      if file.name = name then
        { file with pieces := file.pieces.filter fun piece => piece ≠ .torn }
      else file }

def segmentSize (name : Nat) : Nat :=
  match disk.segment name with
  | none => 0
  | some file =>
    (file.pieces.map fun piece =>
      match piece with
      | .frame rec => opts.frameSize rec
      | .torn => 0).sum

/-- The state after the scan of `files`; `names` are those that a manifest listed. -/
def ofScan (scan : LogScan) (names files : List Nat) : PartitionChangeLog :=
  let clean := if scan.truncated then truncateTorn disk (files.getLast?.getD 0) else disk
  { records := scan.records
    snapshotRecords := if disk.snapshot.isEmpty then scan.records else disk.snapshot
    earliestOffset :=
      (scan.records.head?.map ChangeRecord.offset).getD (scan.highWatermark + 1)
    highWatermark := scan.highWatermark
    committedVersion := scan.committedVersion
    segmentNames := names
    activeSegmentFirstOffset :=
      if scan.records.isEmpty then scan.highWatermark + 1 else scan.lastSegmentFirstOffset
    activeSegmentSize :=
      if scan.records.isEmpty then 0
      else (files.getLast?.map (segmentSize opts clean)).getD 0
    disk := clean }

def matchesWatermarks (manifest : ChangeLogManifest) (scan : LogScan)
    (log : PartitionChangeLog) : Bool :=
  let allowTruncated := scan.truncated && decide (manifest.highWatermark = scan.expectedOffset)
  log.earliestOffset = manifest.earliestOffset &&
    (allowTruncated || log.highWatermark = manifest.highWatermark) &&
    log.committedVersion = manifest.committedVersion

/-- `ReadRecordFrameFile` on the snapshot file. -/
def snapshotReadable : Bool :=
  disk.snapshot.all fun rec =>
    rec.partitionId = opts.partitionId ∧ rec.partitionEpoch = opts.partitionEpoch

/-- The end of `Recover`: the snapshot file is read and the manifest is written. -/
def rewriteManifest : Except Status PartitionChangeLog :=
  if !snapshotReadable opts log.disk then
    .error (corruption "snapshot record partition metadata mismatch")
  else
    match log.makeManifest opts with
    | .error status => .error status
    | .ok manifest => .ok (log.apply opts (.persistManifest manifest))

def recover (disk : ChangeLogDisk) : Except Status PartitionChangeLog :=
  let start : LogScan := ⟨[], 0, 0, 0, 1, false⟩
  match disk.manifest with
  | none =>
    match scanUnlisted opts disk disk.names start with
    | .error status => .error status
    | .ok scan => rewriteManifest opts (ofScan opts disk scan [] disk.names)
  | some manifest =>
    if manifest.partitionId ≠ opts.partitionId ∨
        manifest.partitionEpoch ≠ opts.partitionEpoch then
      .error (corruption "manifest partition metadata mismatch")
    else
      match scanListed opts manifest disk manifest.segments start with
      | .error status => .error status
      | .ok scan =>
        let names := manifest.segments.map SegmentRange.name
        let log := ofScan opts disk scan names names
        if matchesWatermarks manifest scan log then rewriteManifest opts log
        else .error (corruption "manifest watermark mismatch")

def openLog : Except Status PartitionChangeLog :=
  if opts.maxSegmentBytes ≤ 16 then
    .error (.invalidArgument "PartitionChangeLog" "max_segment_bytes too small")
  else if opts.maxFetchRecords = 0 ∨ opts.maxFetchBytes = 0 then
    .error (.invalidArgument "PartitionChangeLog" "fetch limits must be non-zero")
  else recover opts disk

end PartitionChangeLog

end CedarGraph
