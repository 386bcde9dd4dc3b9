import CedarGraph.Cdc.SegmentScan

/-!
# Opening a directory that describes its log

`Recover` compares the segments with the manifest. A log that its directory describes is opened
again, and looks the same, exactly when it was never written to or one of its records still has
the committed version. A torn frame behind the last one makes no difference.
-/

namespace CedarGraph

open List ChangeRecord

namespace PartitionChangeLog

variable {opts : ChangeLogOptions}

/-- The segment files hold the records and nothing else, the offsets go on without a gap up
to the watermark, and the manifest has the watermarks of the log and, unless the last record
was compacted away, its segments. -/
structure Stored (opts : ChangeLogOptions) (log : PartitionChangeLog) : Prop where
  layout : Layout log (log.highWatermark + 1)
  present : ∀ name ∈ log.segmentNames, log.disk.segment name ≠ none
  whole : ∀ file ∈ log.disk.segments, file.pieces = file.frames.map .frame
  contiguous : log.records.map offset = List.range' log.earliestOffset log.records.length
  reaches : log.earliestOffset + log.records.length = log.highWatermark + 1
  positive : 0 < log.earliestOffset
  own : ∀ rec ∈ log.records, Own opts rec
  ownSnapshot : ∀ rec ∈ log.snapshotRecords, Own opts rec
  ownDisk : ∀ rec ∈ log.disk.snapshot, Own opts rec
  versions : ∀ rec ∈ log.records, rec.commitVersion ≤ log.committedVersion
  unused : log.highWatermark = 0 → log.committedVersion = 0
  growing : log.records ≠ [] → 0 < log.activeSegmentSize
  described : ∃ segments,
    log.disk.manifest = some ⟨opts.partitionId, opts.partitionEpoch, log.earliestOffset,
      log.highWatermark, log.committedVersion, segments⟩ ∧
    (log.records ≠ [] ∨ log.highWatermark = 0 →
      segments = log.segmentNames.map fun name => rangeOf opts name (log.disk.frames name))

section Stored

variable {log : PartitionChangeLog}

variable {disk : ChangeLogDisk} {name : Nat} {tail : List SegmentPiece}

theorem segment_whole (whole : ∀ file ∈ disk.segments, file.pieces = file.frames.map .frame)
    (present : disk.segment name ≠ none) :
    disk.segment name = some ⟨name, (disk.frames name).map .frame⟩ := by
  cases found : disk.segment name with
  | none => exact absurd found present
  | some file =>
    obtain ⟨mem, sameName⟩ := ChangeLogDisk.segment_eq_some found
    have pieces := whole file mem
    rw [ChangeLogDisk.frames, found, Option.map_some, Option.getD_some, ← pieces, ← sameName]

section

variable (stored : Stored opts log)
include stored

section

variable (mem : name ∈ log.segmentNames)
include mem

theorem Stored.files : log.disk.segment name = some ⟨name, (log.disk.frames name).map .frame⟩ :=
  segment_whole stored.whole (stored.present name mem)

theorem Stored.head_frames : (log.disk.frames name).head?.map offset = some name := by
  have found := stored.files mem
  have inDisk := (ChangeLogDisk.segment_eq_some found).1
  have named := stored.layout.named _ inDisk
  rw [ChangeLogDisk.frames, found]
  exact named

theorem Stored.filled : log.disk.frames name ≠ [] := by
  intro empty
  have head := stored.head_frames mem
  rw [empty] at head
  simp at head

theorem Stored.mem_records
    {rec : ChangeRecord} (inFrames : rec ∈ log.disk.frames name) : rec ∈ log.records := by
  rw [← stored.layout.content]
  exact mem_flatMap.mpr ⟨name, mem, inFrames⟩

end

theorem Stored.segmentNames_eq_nil_iff : log.segmentNames = [] ↔ log.records = [] := by
  constructor
  · intro noNames
    rw [← stored.layout.content, noNames, flatMap_nil]
  · intro noRecords
    rw [eq_nil_iff_forall_not_mem]
    intro name mem
    obtain ⟨rec, inFrames⟩ := exists_mem_of_ne_nil _ (stored.filled mem)
    have inRecords := stored.mem_records mem inFrames
    rw [noRecords] at inRecords
    simp at inRecords

theorem Stored.offset_pos {rec : ChangeRecord} (mem : rec ∈ log.records) : 0 < rec.offset := by
  have inOffsets : rec.offset ∈ log.records.map offset :=
    mem_map_of_mem mem
  rw [stored.contiguous, mem_range'_1] at inOffsets
  have positive := stored.positive
  omega

end

/-- The log was never written to, or a record with the committed version is still there. -/
def Reopenable (log : PartitionChangeLog) : Prop :=
  log.highWatermark = 0 ∨ ∃ rec ∈ log.records, rec.commitVersion = log.committedVersion

/-- A directory whose listed segments are those of the log, up to pieces behind the last
frame. -/
structure Tailed (opts : ChangeLogOptions) (log : PartitionChangeLog)
    (tail : List SegmentPiece) (disk : ChangeLogDisk) : Prop where
  manifest : disk.manifest = log.disk.manifest
  files : ∀ name ∈ log.segmentNames,
    disk.segment name = some ⟨name, (log.disk.frames name).map .frame ++
      if log.segmentNames.getLast? = some name then tail else []⟩
  ownSnapshot : ∀ rec ∈ disk.snapshot, Own opts rec

theorem Stored.tailed (stored : Stored opts log) : Tailed opts log [] log.disk := by
  refine ⟨rfl, ?_, stored.ownDisk⟩
  intro name mem
  rw [ite_self, append_nil]
  exact stored.files mem

def wholeScan (log : PartitionChangeLog) : LogScan :=
  LogScan.addSegments log.disk.frames ⟨[], 0, 0, 0, 1, false⟩ log.segmentNames

section

variable (stored : Stored opts log)
include stored

theorem Stored.wholeScan_fields :
    (wholeScan log).records = log.records ∧
      (wholeScan log).committedVersion = maxVersion 0 log.records ∧
      (log.records ≠ [] → (wholeScan log).highWatermark = log.highWatermark ∧
        (wholeScan log).expectedOffset = log.highWatermark + 1) ∧
      (log.records = [] → (wholeScan log).highWatermark = 0) ∧
      (wholeScan log).truncated = false := by
  obtain ⟨recs, watermark, ver, expected, truncated⟩ :=
    addSegments_fields log.disk.frames ⟨[], 0, 0, 0, 1, false⟩ log.segmentNames
  rw [stored.layout.content] at recs watermark ver expected
  rw [nil_append] at recs
  refine ⟨recs, ver, ?_, ?_, truncated⟩
  · intro filled
    obtain ⟨last, isLast, next⟩ := getLast?_offset stored.contiguous filled
    rw [stored.reaches] at next
    have offset : last.offset = log.highWatermark := by omega
    rw [wholeScan, watermark, expected, isLast]
    simp [offset]
  · intro empty
    rw [wholeScan, watermark, empty]
    simp

theorem Stored.scanListed_split (tailed : Tailed opts log tail disk) (manifest : ChangeLogManifest)
    (filled : log.records ≠ []) :
    ∃ last, scanListed opts manifest disk
        (log.segmentNames.map fun name => rangeOf opts name (log.disk.frames name))
        ⟨[], 0, 0, 0, 1, false⟩ =
      match scanSegment opts true (some manifest) tail (wholeScan log)
          (SegmentScan.addFrames opts ⟨0, 0, 0⟩ (log.disk.frames last)) with
      | .error status => .error status
      | .ok (scanned, segment) =>
        if matchesManifest true manifest (rangeOf opts last (log.disk.frames last)) scanned
            segment then .ok scanned
        else .error (corruption "manifest segment range mismatch") := by
  have someName : log.segmentNames ≠ [] := by
    intro noNames
    exact filled (stored.segmentNames_eq_nil_iff.mp noNames)
  obtain ⟨front, last, split⟩ : ∃ front last, log.segmentNames = front ++ [last] :=
    ⟨_, _, (dropLast_append_getLast someName).symm⟩
  have content := stored.layout.content
  have contiguous := stored.contiguous
  rw [split, flatMap_append, flatMap_singleton] at content
  rw [← content] at contiguous
  obtain ⟨frontContiguous, lastContiguous⟩ := contiguous_append contiguous
  have isLast : log.segmentNames.getLast? = some last := by
    simp [split]
  have inNames : ∀ name ∈ front, name ∈ log.segmentNames := by
    intro name mem
    simp [split, mem]
  have lastInNames : last ∈ log.segmentNames := by
    simp [split]
  have frontFiles : ∀ name ∈ front,
      disk.segment name = some ⟨name, (log.disk.frames name).map .frame⟩ := by
    intro name mem
    have sorted := stored.layout.sorted
    rw [split, pairwise_append] at sorted
    have before := sorted.2.2 name mem last (mem_singleton_self last)
    have ne : ¬ log.segmentNames.getLast? = some name := by
      rw [isLast, Option.some.injEq]
      omega
    have file := tailed.files name (inNames name mem)
    rw [if_neg ne, append_nil] at file
    exact file
  have lastFile := tailed.files last lastInNames
  rw [if_pos isLast] at lastFile
  have ownFront : ∀ name ∈ front, ∀ rec ∈ log.disk.frames name, Own opts rec :=
    fun name mem rec inFrames =>
      stored.own rec (stored.mem_records (inNames name mem) inFrames)
  have ownLast : ∀ rec ∈ log.disk.frames last, Own opts rec :=
    fun rec inFrames => stored.own rec (stored.mem_records lastInNames inFrames)
  have whole : wholeScan log = LogScan.addFrames
      (LogScan.addSegments log.disk.frames ⟨[], 0, 0, 0, 1, false⟩ front) true
        (log.disk.frames last) := by
    simp [wholeScan, split, LogScan.addSegments]
  have expected : (LogScan.addSegments log.disk.frames ⟨[], 0, 0, 0, 1, false⟩
      front).expectedOffset = 0 ∨
      (LogScan.addSegments log.disk.frames ⟨[], 0, 0, 0, 1, false⟩ front).expectedOffset =
        log.earliestOffset + (front.flatMap log.disk.frames).length := by
    rw [(addSegments_fields log.disk.frames ⟨[], 0, 0, 0, 1, false⟩ front).2.2.2.1]
    by_cases empty : front.flatMap log.disk.frames = []
    · simp [empty]
    · obtain ⟨final, isFinal, next⟩ := getLast?_offset frontContiguous empty
      right
      simp [isFinal, next]
  have frontFilled : ∀ name ∈ front, log.disk.frames name ≠ [] :=
    fun name mem => stored.filled (inNames name mem)
  have lastScan := @scanListed_last opts _ manifest disk last (log.disk.frames last) tail
    lastFile ownLast _ lastContiguous expected
  rw [← whole] at lastScan
  refine ⟨last, ?_⟩
  rw [split, map_append, map_singleton, @scanListed_front opts log.disk.frames front
    ⟨[], 0, 0, 0, 1, false⟩ manifest disk frontFiles frontFilled ownFront log.earliestOffset
    frontContiguous (Or.inl rfl) [rangeOf opts last (log.disk.frames last)]]
  exact lastScan

theorem Stored.scanListed_tailed {tail : List SegmentPiece} {disk : ChangeLogDisk}
    (tailed : Tailed opts log tail disk) (repairable : tail = [] ∨ tail = [.torn])
    {manifest : ChangeLogManifest} (watermark : manifest.highWatermark = log.highWatermark)
    (filled : log.records ≠ []) :
    scanListed opts manifest disk
        (log.segmentNames.map fun name => rangeOf opts name (log.disk.frames name))
        ⟨[], 0, 0, 0, 1, false⟩ =
      .ok { wholeScan log with truncated := decide (tail ≠ []) } := by
  obtain ⟨last, scanned⟩ := stored.scanListed_split tailed manifest filled
  rw [scanned]
  have scanExpected := (stored.wholeScan_fields.2.2.1 filled).2
  have notTruncated := stored.wholeScan_fields.2.2.2.2
  have matching : ∀ scanned, matchesManifest true manifest
      (rangeOf opts last (log.disk.frames last)) scanned
      (SegmentScan.addFrames opts ⟨0, 0, 0⟩ (log.disk.frames last)) = true := by
    intro scanned
    simp [matchesManifest, rangeOf, SegmentScan.addFrames]
  rcases repairable with none | torn
  · rw [none, scanSegment]
    simp [matching, ← notTruncated]
  · have known : ¬ (!true ∨ ∃ known ∈ some manifest,
        (wholeScan log).expectedOffset < known.highWatermark) := by
      simp [scanExpected, watermark]
    rw [torn, scanSegment, if_neg (by simp), if_neg known]
    simp [matching]

end

structure SameView (log reopened : PartitionChangeLog) : Prop where
  records : reopened.records = log.records
  earliestOffset : reopened.earliestOffset = log.earliestOffset
  highWatermark : reopened.highWatermark = log.highWatermark
  committedVersion : reopened.committedVersion = log.committedVersion

theorem map_name_rangeOf (frames : Nat → List ChangeRecord) (names : List Nat) :
    (names.map fun name => rangeOf opts name (frames name)).map SegmentRange.name = names := by
  rw [map_map]
  exact map_id _

theorem Stored.head_records (stored : Stored opts log) :
    (log.records.head?.map offset).getD (log.highWatermark + 1) = log.earliestOffset := by
  cases shape : log.records with
  | nil =>
    have reaches := stored.reaches
    rw [shape, length_nil, Nat.add_zero] at reaches
    simp [reaches]
  | cons first rest =>
    have contiguous := stored.contiguous
    rw [shape, length_cons, range'_succ, map_cons, cons.injEq] at contiguous
    simp [contiguous.1]

theorem segment_withoutTorn {name last : Nat} {recs : List ChangeRecord} (torn : tail = [.torn])
    (file : disk.segment name = some ⟨name, recs.map .frame ++
      if some last = some name then tail else []⟩) :
    (truncateTorn disk last).segment name = some ⟨name, recs.map .frame⟩ := by
  rw [segment_truncateTorn, file, Option.map_some, withoutTorn]
  by_cases same : name = last
  · subst same
    simp [torn, filter_append]
  · have ne : ¬ last = name := fun equal => same equal.symm
    simp [same, ne]

/-- What `Recover` makes of the directory of a log with records, up to a torn frame. -/
def reopenedLog (opts : ChangeLogOptions) (log : PartitionChangeLog)
    (tail : List SegmentPiece) (disk : ChangeLogDisk) : PartitionChangeLog :=
  (ofScan opts disk { wholeScan log with truncated := decide (tail ≠ []) } log.segmentNames
    log.segmentNames).apply opts (.persistManifest
      ⟨opts.partitionId, opts.partitionEpoch, log.earliestOffset, log.highWatermark,
        log.committedVersion,
        log.segmentNames.map fun name => rangeOf opts name (log.disk.frames name)⟩)

section Tailed

variable {tail : List SegmentPiece} {disk : ChangeLogDisk}

theorem Tailed.segment_clean
    (tailed : Tailed opts log tail disk) (repairable : tail = [] ∨ tail = [.torn])
    {name : Nat} (mem : name ∈ log.segmentNames) :
    (if decide (tail ≠ []) = true then truncateTorn disk (log.segmentNames.getLast?.getD 0)
      else disk).segment name = some ⟨name, (log.disk.frames name).map .frame⟩ := by
  have file := tailed.files name mem
  rcases repairable with none | torn
  · subst none
    rw [ite_self, append_nil] at file
    simpa using file
  · obtain ⟨last, isLast⟩ : ∃ last, log.segmentNames.getLast? = some last := by
      cases shape : log.segmentNames.getLast? with
      | none =>
        rw [getLast?_eq_none_iff.mp shape] at mem
        simp at mem
      | some last => exact ⟨last, rfl⟩
    rw [isLast] at file ⊢
    rw [if_pos (by simp [torn])]
    exact segment_withoutTorn torn file

section

variable (stored : Stored opts log)
include stored

theorem Stored.recover_tailed (filled : log.records ≠ [])
    (tailed : Tailed opts log tail disk) (repairable : tail = [] ∨ tail = [.torn]) :
    recover opts disk =
      if maxVersion 0 log.records = log.committedVersion then
        .ok (reopenedLog opts log tail disk)
      else .error (corruption "manifest watermark mismatch") := by
  obtain ⟨segments, onDisk, exact_segments⟩ := stored.described
  obtain rfl := exact_segments (Or.inl filled)
  obtain ⟨recs, ver, watermarks, _, _⟩ := stored.wholeScan_fields
  obtain ⟨watermark, _⟩ := watermarks filled
  have scanned := @Stored.scanListed_tailed opts log stored tail disk tailed repairable
    ⟨opts.partitionId, opts.partitionEpoch, log.earliestOffset, log.highWatermark,
      log.committedVersion,
      log.segmentNames.map fun name => rangeOf opts name (log.disk.frames name)⟩ rfl filled
  have someName : log.segmentNames ≠ [] :=
    fun noNames => filled (stored.segmentNames_eq_nil_iff.mp noNames)
  rw [recover, tailed.manifest, onDisk]
  dsimp only
  rw [if_neg (by simp), scanned]
  dsimp only
  rw [map_name_rangeOf]
  set scan : LogScan := { wholeScan log with truncated := decide (tail ≠ []) }
  set read := ofScan opts disk scan log.segmentNames log.segmentNames
  have earliest : read.earliestOffset = log.earliestOffset := by
    simp only [read, scan, ofScan, recs, watermark]
    exact stored.head_records
  have matching : matchesWatermarks ⟨opts.partitionId, opts.partitionEpoch,
      log.earliestOffset, log.highWatermark, log.committedVersion,
      log.segmentNames.map fun name => rangeOf opts name (log.disk.frames name)⟩ scan read =
      decide (maxVersion 0 log.records = log.committedVersion) := by
    rw [matchesWatermarks, earliest]
    simp [read, scan, ofScan, watermark, ver]
  rw [matching]
  by_cases attained : maxVersion 0 log.records = log.committedVersion
  · have snap : read.disk.snapshot = disk.snapshot := by
      simp only [read, ofScan]
      split
      · rfl
      · rfl
    have readable : snapshotReadable opts read.disk = true := by
      rw [snapshotReadable, snap, all_eq_true]
      intro rec mem
      exact decide_eq_true (tailed.ownSnapshot rec mem)
    have made := @makeManifest_frames opts read log.disk.frames stored.layout.sorted someName
      (fun name mem => tailed.segment_clean repairable mem)
      (fun name mem rec inFrames => stored.offset_pos (stored.mem_records mem inFrames))
    rw [earliest] at made
    rw [if_pos (decide_eq_true attained), if_pos attained, rewriteManifest, readable, made]
    simp [reopenedLog, read, scan, ofScan, watermark, ver, attained]
  · rw [if_neg (by simpa using attained), if_neg attained]

theorem reopenedLog_sameView (filled : log.records ≠ [])
    (attained : maxVersion 0 log.records = log.committedVersion) :
    SameView log (reopenedLog opts log tail disk) := by
  obtain ⟨recs, ver, watermarks, _, _⟩ := stored.wholeScan_fields
  obtain ⟨watermark, _⟩ := watermarks filled
  refine ⟨recs, ?_, watermark, ver.trans attained⟩
  simp only [reopenedLog, apply, ofScan, recs, watermark]
  exact stored.head_records

/-- The directory of a log that was never written to.  All segment files that it holds are
listed in the new manifest. -/
theorem Stored.recover_unused (unused : log.highWatermark = 0)
    (sameManifest : disk.manifest = log.disk.manifest)
    (ownSnapshot : ∀ rec ∈ disk.snapshot, Own opts rec) :
    recover opts disk =
      match disk.names.mapM (segmentRange opts disk) with
      | .error status => .error status
      | .ok ranges => .ok ((ofScan opts disk ⟨[], 0, 0, 0, 1, false⟩ [] []).apply opts
          (.persistManifest ⟨opts.partitionId, opts.partitionEpoch, 1, 0, 0, ranges⟩)) := by
  obtain ⟨segments, onDisk, exact_segments⟩ := stored.described
  obtain rfl := exact_segments (Or.inr unused)
  have reaches := stored.reaches
  have positive := stored.positive
  have earliest : log.earliestOffset = 1 := by omega
  have noRecords : log.records = [] := by
    apply eq_nil_of_length_eq_zero
    omega
  have noNames := stored.segmentNames_eq_nil_iff.mpr noRecords
  have readable : snapshotReadable opts disk = true := by
    rw [snapshotReadable, all_eq_true]
    intro rec mem
    exact decide_eq_true (ownSnapshot rec mem)
  rw [recover, sameManifest, onDisk]
  simp only [noNames, map_nil, scanListed, earliest, unused, stored.unused unused]
  simp only [ne_eq, not_true_eq_false, or_self, if_false, matchesWatermarks, ofScan,
    head?_nil, Option.map_none, Option.getD_none, decide_true, Bool.or_true, Bool.and_true,
    if_true, rewriteManifest, Bool.false_eq_true, readable, Bool.not_true, makeManifest,
    isEmpty_nil, Nat.zero_add]
  cases disk.names.mapM (segmentRange opts disk) with
  | error status => rfl
  | ok ranges => rfl

end

end Tailed

section

variable (stored : Stored opts log)
include stored

theorem Stored.segments_eq_nil (empty : log.records = []) : log.disk.segments = [] := by
  rw [eq_nil_iff_forall_not_mem]
  intro file mem
  have inNames := stored.layout.listed file mem
  rw [stored.segmentNames_eq_nil_iff.mpr empty] at inNames
  simp at inNames

/-- When the last record was compacted away, the manifest does not fit the directory. -/
theorem Stored.recover_emptied (empty : log.records = []) (used : log.highWatermark ≠ 0)
    (reopened : PartitionChangeLog) : recover opts log.disk ≠ .ok reopened := by
  obtain ⟨segments, onDisk, _⟩ := stored.described
  have noFiles := stored.segments_eq_nil empty
  have reaches := stored.reaches
  rw [empty, length_nil] at reaches
  rw [recover, onDisk]
  dsimp only
  rw [if_neg (by simp)]
  cases segments with
  | nil =>
    have mismatch : ¬ 1 = log.earliestOffset := by omega
    simp [scanListed, matchesWatermarks, ofScan, mismatch]
  | cons range rest => simp [scanListed, ChangeLogDisk.segment, noFiles]

theorem Stored.recover_iff :
    (∃ reopened, recover opts log.disk = .ok reopened) ↔ Reopenable log := by
  have reaches := stored.reaches
  have positive := stored.positive
  by_cases empty : log.records = []
  · have noMember : ¬ ∃ rec ∈ log.records, rec.commitVersion = log.committedVersion := by
      simp [empty]
    rw [Reopenable, or_iff_left noMember]
    constructor
    · intro read
      obtain ⟨reopened, read⟩ := read
      by_contra used
      exact stored.recover_emptied empty used reopened read
    · intro unused
      rw [stored.recover_unused unused rfl stored.ownDisk, ChangeLogDisk.names,
        stored.segments_eq_nil empty]
      simp [pure, Except.pure]
  · have length := length_pos_iff.mpr empty
    have used : ¬ log.highWatermark = 0 := by omega
    rw [Reopenable, or_iff_right used, ← maxVersion_eq_iff empty stored.versions,
      stored.recover_tailed empty stored.tailed (Or.inl rfl)]
    by_cases attained : maxVersion 0 log.records = log.committedVersion
    · simp [attained]
    · simp [attained]

theorem Stored.clean (reopenable : Reopenable log) : Clean log := by
  have reaches := stored.reaches
  have positive := stored.positive
  have ascending : (log.records.map offset).Pairwise (· < ·) := by
    rw [stored.contiguous]
    exact pairwise_lt_range'
  obtain ⟨segments, onDisk, exact_segments⟩ := stored.described
  have described : log.records ≠ [] ∨ log.highWatermark = 0 := by
    rcases reopenable with unused | ⟨rec, mem, _⟩
    · exact Or.inr unused
    · exact Or.inl (ne_nil_of_mem mem)
  obtain rfl := exact_segments described
  refine ⟨stored.layout, pairwise_map.mp ascending, ?_, _, ⟨onDisk, ?_, ?_, ?_⟩⟩
  · intro rec mem
    have inOffsets : rec.offset ∈ log.records.map offset :=
      mem_map_of_mem mem
    rw [stored.contiguous, mem_range'_1] at inOffsets
    omega
  · rw [map_name_rangeOf]
    exact stored.layout.sorted
  · rw [map_name_rangeOf]
    exact stored.layout.listed
  · rw [map_name_rangeOf]
    exact stored.layout.content

theorem Stored.size_reopened (filled : log.records ≠ []) :
    0 < (reopenedLog opts log [] log.disk).activeSegmentSize := by
  have someName : log.segmentNames ≠ [] :=
    fun noNames => filled (stored.segmentNames_eq_nil_iff.mp noNames)
  have someRecord : ¬ (wholeScan log).records.isEmpty = true := by
    rw [stored.wholeScan_fields.1]
    simpa using filled
  have isLast := getLast?_eq_some_getLast someName
  have size := @segmentSize_pos opts log.disk _ (stored.filled (getLast_mem someName))
  simpa [reopenedLog, apply, ofScan, someRecord, isLast] using size

/-- The log that is opened again looks the same and is again described by its directory. -/
theorem Stored.recovered
    {reopened : PartitionChangeLog} (read : recover opts log.disk = .ok reopened) :
    SameView log reopened ∧ Stored opts reopened := by
  have reopenable := stored.recover_iff.mp ⟨reopened, read⟩
  have layout := ((stored.clean reopenable).recover read).1.layout
  by_cases empty : log.records = []
  · have unused : log.highWatermark = 0 := by
      rcases reopenable with unused | ⟨rec, mem, _⟩
      · exact unused
      · rw [empty] at mem
        simp at mem
    have earliest : log.earliestOffset = 1 := by
      have reaches := stored.reaches
      rw [empty, length_nil, unused] at reaches
      omega
    rw [stored.recover_unused unused rfl stored.ownDisk, ChangeLogDisk.names,
      stored.segments_eq_nil empty, map_nil, insertionSort_nil, mapM_nil] at read
    obtain rfl := Except.ok.inj read
    refine ⟨⟨empty.symm, earliest.symm, unused.symm, (stored.unused unused).symm⟩,
      ⟨layout, ?_, stored.whole, ?_, ?_, ?_, ?_, ?_, stored.ownDisk, ?_, ?_, ?_, ?_⟩⟩
    · simp [apply, ofScan]
    · simp [apply, ofScan]
    · simp [apply, ofScan]
    · simp [apply, ofScan]
    · simp [apply, ofScan]
    · intro rec mem
      simp only [apply, ofScan] at mem
      split at mem
      · simp at mem
      · exact stored.ownDisk rec mem
    · simp [apply, ofScan]
    · simp [apply, ofScan]
    · simp [apply, ofScan]
    · exact ⟨[], rfl, fun _ => rfl⟩
  · have attained : maxVersion 0 log.records = log.committedVersion := by
      by_contra missing
      rw [stored.recover_tailed empty stored.tailed (Or.inl rfl), if_neg missing] at read
      simp at read
    rw [stored.recover_tailed empty stored.tailed (Or.inl rfl), if_pos attained,
      Except.ok.injEq] at read
    have view := @reopenedLog_sameView opts log [] log.disk stored empty attained
    subst read
    refine ⟨view, ⟨layout, stored.present, stored.whole, ?_, ?_, ?_, ?_, ?_, stored.ownDisk,
      ?_, ?_, ?_, ?_⟩⟩
    · rw [view.records, view.earliestOffset]
      exact stored.contiguous
    · rw [view.records, view.earliestOffset, view.highWatermark]
      exact stored.reaches
    · rw [view.earliestOffset]
      exact stored.positive
    · rw [view.records]
      exact stored.own
    · intro rec mem
      simp only [reopenedLog, apply, ofScan, stored.wholeScan_fields.1] at mem
      split at mem
      · exact stored.own rec mem
      · exact stored.ownDisk rec mem
    · rw [view.records, view.committedVersion]
      exact stored.versions
    · rw [view.highWatermark, view.committedVersion]
      exact stored.unused
    · intro _
      exact stored.size_reopened empty
    · rw [view.records, view.highWatermark, view.earliestOffset, view.committedVersion]
      exact ⟨_, rfl, fun _ => rfl⟩

end

end Stored

end PartitionChangeLog

end CedarGraph
