import CedarGraph.Cdc.ChangeLog

/-!
# Logs that have only seen whole appends

As long as every append is written with its manifest, or fails before it touches a segment file,
the frames in the segment files are the records in memory, and opening the directory again gives
the same records.
-/

namespace CedarGraph

open List Runs SegmentPiece ChangeRecord ChangeLogOptions Nat Option SegmentFile

/-! ## Frames on disk -/

def SegmentPiece.frame? : SegmentPiece → Option ChangeRecord
  | .frame rec => some rec
  | .torn => none

def SegmentFile.frames (file : SegmentFile) : List ChangeRecord :=
  file.pieces.filterMap frame?

namespace ChangeLogDisk

def frames (disk : ChangeLogDisk) (name : Nat) : List ChangeRecord :=
  ((disk.segment name).map SegmentFile.frames).getD []

variable {disk : ChangeLogDisk} {name : Nat}

theorem segment_eq_some {file : SegmentFile} (found : disk.segment name = some file) :
    file ∈ disk.segments ∧ file.name = name := by
  exact ⟨mem_of_find?_eq_some found, by simpa using find?_some found⟩

theorem segment_eq_none_iff :
    disk.segment name = none ↔ ∀ file ∈ disk.segments, file.name ≠ name := by
  simp [segment]

theorem frames_eq_nil (missing : disk.segment name = none) : disk.frames name = [] := by
  simp [frames, missing]

section Write

variable (disk : ChangeLogDisk) (name : Nat) (piece : SegmentPiece)

theorem segment_write (other : Nat) :
    (disk.write name piece).segment other =
      if other = name then
        some ⟨name, ((disk.segment name).map SegmentFile.pieces).getD [] ++ [piece]⟩
      else disk.segment other := by
  by_cases present : disk.segments.any fun file => file.name = name
  · have mapped : (disk.write name piece).segment other = (disk.segment other).map fun file =>
          if file.name = name then file.append piece else file := by
      rw [write, if_pos present, segment, segment, find?_map]
      congr 2
      funext file
      by_cases same : file.name = name
      · simp [same, append]
      · simp [same]
    rw [mapped]
    by_cases same : other = name
    · subst same
      obtain ⟨file, mem, sameName⟩ := any_eq_true.mp present
      cases found : disk.segment other with
      | none => exact absurd (of_decide_eq_true sameName) (segment_eq_none_iff.mp found file mem)
      | some cur =>
        have currentName := (segment_eq_some found).2
        simp [currentName, append]
    · rw [if_neg same]
      cases found : disk.segment other with
      | none => simp
      | some cur =>
        have currentName := (segment_eq_some found).2
        simp [currentName, same]
  · have missing : disk.segment name = none := by
      rw [segment_eq_none_iff]
      intro file mem sameName
      exact present (any_eq_true.mpr ⟨file, mem, decide_eq_true sameName⟩)
    rw [write, if_neg present, segment, find?_append]
    by_cases same : other = name
    · subst same
      rw [segment] at missing
      simp [segment, missing]
    · have ne : ¬ name = other := fun equal => same equal.symm
      simp [segment, same, ne]

theorem frames_write (rec : ChangeRecord) (other : Nat) :
    (disk.write name (.frame rec)).frames other =
      if other = name then disk.frames name ++ [rec] else disk.frames other := by
  rw [frames, segment_write]
  by_cases same : other = name
  · subst same
    cases found : disk.segment other with
    | none => simp [frames, found, SegmentFile.frames, frame?]
    | some cur => simp [frames, found, SegmentFile.frames, frame?]
  · simp [frames, same]

theorem forall_mem_write
    {property : SegmentFile → Prop} (old : ∀ file ∈ disk.segments, property file)
    (extended : ∀ file ∈ disk.segments, file.name = name → property (file.append piece))
    (new : disk.segment name = none → property ⟨name, [piece]⟩) :
    ∀ file ∈ (disk.write name piece).segments, property file := by
  intro file mem
  by_cases present : disk.segments.any fun file => file.name = name
  · rw [write, if_pos present] at mem
    obtain ⟨before, beforeMember, rfl⟩ := mem_map.mp mem
    by_cases same : before.name = name
    · simpa [same] using extended before beforeMember same
    · simpa [same] using old before beforeMember
  · rw [write, if_neg present] at mem
    rcases mem_append.mp mem with before | created
    · exact old file before
    · rw [mem_singleton.mp created]
      apply new
      rw [segment_eq_none_iff]
      intro other otherMember sameName
      exact present (any_eq_true.mpr ⟨other, otherMember, decide_eq_true sameName⟩)

end Write

end ChangeLogDisk

namespace PartitionChangeLog

/-! ## Segments and records -/

/-- The listed segments hold the records in order, and the next record, which has offset
`next`, goes to the last of them or to a new one. -/
structure Layout (log : PartitionChangeLog) (next : Nat) : Prop where
  sorted : log.segmentNames.Pairwise (· < ·)
  listed : ∀ file ∈ log.disk.segments, file.name ∈ log.segmentNames
  named : ∀ file ∈ log.disk.segments, file.frames.head?.map offset = some file.name
  content : log.segmentNames.flatMap log.disk.frames = log.records
  fresh : log.activeSegmentSize = 0 →
    log.activeSegmentFirstOffset = next ∧ log.disk.segment next = none
  begun : 0 < log.activeSegmentSize →
    log.segmentNames.getLast? = some log.activeSegmentFirstOffset ∧
      log.disk.segment log.activeSegmentFirstOffset ≠ none
  below : ∀ name ∈ log.segmentNames, name < next ∨ name = next ∧ log.activeSegmentSize = 0

variable {opts : ChangeLogOptions} {log : PartitionChangeLog} {next : Nat}

variable {name : Nat} {names : List Nat} {rec : ChangeRecord} {recs : List ChangeRecord}
    {ver : UInt64} {disk : ChangeLogDisk} {manifest : ChangeLogManifest}

theorem getLast?_of_max (sorted : names.Pairwise (· < ·)) (mem : name ∈ names)
    (largest : ∀ other ∈ names, other ≤ name) : names.getLast? = some name := by
  obtain ⟨front, back, rfl⟩ := append_of_mem mem
  cases back with
  | nil => simp
  | cons head tail =>
    have after := (pairwise_cons.mp (pairwise_append.mp sorted).2.1).1 head mem_cons_self
    have before := largest head (by simp)
    omega

section

variable (layout : Layout log next)
include layout

theorem Layout.list_next (missing : log.disk.segment next = none)
    (absent : next ∉ log.segmentNames) :
    Layout { log with
      segmentNames := log.segmentNames ++ [next]
      activeSegmentFirstOffset := next
      activeSegmentSize := 0 } next := by
  have prev : ∀ name ∈ log.segmentNames, name < next := by
    intro name mem
    rcases layout.below name mem with before | same
    · exact before
    · exact absurd (same.1 ▸ mem) absent
  constructor
  · rw [pairwise_append]
    refine ⟨layout.sorted, pairwise_singleton _ _, ?_⟩
    intro name mem other isNext
    rw [mem_singleton.mp isNext]
    exact prev name mem
  · intro file mem
    exact mem_append_left _ (layout.listed file mem)
  · exact layout.named
  · simp [layout.content, ChangeLogDisk.frames_eq_nil missing]
  · intro _
    exact ⟨rfl, missing⟩
  · intro positive
    simp at positive
  · intro name mem
    rcases mem_append.mp mem with before | isNext
    · exact Or.inl (prev name before)
    · exact Or.inr ⟨mem_singleton.mp isNext, rfl⟩

theorem Layout.selectSegment {rec : ChangeRecord} (offset : rec.offset = next) :
    Layout (log.selectSegment opts rec) next ∧
      (log.selectSegment opts rec).segmentNames.getLast? =
        some (log.selectSegment opts rec).activeSegmentFirstOffset ∧
      (log.selectSegment opts rec).records = log.records ∧
      (log.selectSegment opts rec).highWatermark = log.highWatermark ∧
      (log.selectSegment opts rec).disk = log.disk := by
  by_cases rolls : 0 < log.activeSegmentSize ∧
      opts.maxSegmentBytes < log.activeSegmentSize + opts.frameSize rec
  · have absent : next ∉ log.segmentNames := by
      intro mem
      have below := layout.below next mem
      omega
    have missing : log.disk.segment next = none := by
      rw [ChangeLogDisk.segment_eq_none_iff]
      intro file mem sameName
      exact absent (sameName ▸ layout.listed file mem)
    have selected : log.selectSegment opts rec = { log with
          segmentNames := log.segmentNames ++ [next]
          activeSegmentFirstOffset := next
          activeSegmentSize := 0 } := by
      simp [PartitionChangeLog.selectSegment, rolls, offset, absent]
    rw [selected]
    exact ⟨layout.list_next missing absent, by simp, rfl, rfl, rfl⟩
  · by_cases empty : log.activeSegmentSize = 0
    · obtain ⟨active, missing⟩ := layout.fresh empty
      by_cases absent : next ∉ log.segmentNames
      · have selected : log.selectSegment opts rec = { log with
              segmentNames := log.segmentNames ++ [next]
              activeSegmentFirstOffset := next
              activeSegmentSize := 0 } := by
          simp [PartitionChangeLog.selectSegment, empty, active, absent]
        rw [selected]
        exact ⟨layout.list_next missing absent, by simp, rfl, rfl, rfl⟩
      · have present : next ∈ log.segmentNames := not_not.mp absent
        have selected : log.selectSegment opts rec = log := by
          simp [PartitionChangeLog.selectSegment, empty, active, present]
        rw [selected, active]
        refine ⟨layout, getLast?_of_max layout.sorted present ?_, rfl, rfl, rfl⟩
        intro other mem
        have below := layout.below other mem
        omega
    · have selected : log.selectSegment opts rec = log := by
        simp [PartitionChangeLog.selectSegment, rolls, empty]
      rw [selected]
      exact ⟨layout, (layout.begun (pos_of_ne_zero empty)).1, rfl, rfl, rfl⟩

theorem Layout.write (last : log.segmentNames.getLast? = some log.activeSegmentFirstOffset)
    (offset : rec.offset = next) {size : Nat} (positive : 0 < size) :
    Layout { log with
      records := log.records ++ [rec]
      snapshotRecords := log.snapshotRecords ++ [rec]
      activeSegmentSize := size
      disk := log.disk.write log.activeSegmentFirstOffset (.frame rec) } (next + 1) := by
  obtain ⟨front, split⟩ := getLast?_eq_some_iff.mp last
  have inNames : log.activeSegmentFirstOffset ∈ log.segmentNames := by
    simp [split]
  constructor
  · exact layout.sorted
  · refine log.disk.forall_mem_write _ _ layout.listed ?_ ?_
    · intro file mem _
      exact layout.listed file mem
    · intro _
      exact inNames
  · refine log.disk.forall_mem_write _ _ layout.named ?_ ?_
    · -- the first frame of a file that exists stays the first
      intro file mem _
      have before := layout.named file mem
      cases shape : file.frames with
      | nil =>
        rw [shape] at before
        simp at before
      | cons first rest =>
        rw [shape] at before
        rw [frames] at shape
        simpa [frames, append, shape] using before
    · intro missing
      have empty : log.activeSegmentSize = 0 := by
        by_contra started
        exact (layout.begun (pos_of_ne_zero started)).2 missing
      have active := (layout.fresh empty).1
      simp [frames, frame?, offset, active]
  · have others : ∀ name ∈ front, name ≠ log.activeSegmentFirstOffset := by
      intro name mem same
      have sorted := layout.sorted
      rw [split, pairwise_append] at sorted
      have before := sorted.2.2 name mem _ (mem_singleton_self _)
      omega
    have sameFront : front.flatMap
        (log.disk.write log.activeSegmentFirstOffset (.frame rec)).frames =
          front.flatMap log.disk.frames := by
      apply flatMap_congr
      intro name mem
      rw [ChangeLogDisk.frames_write, if_neg (others name mem)]
    have content := layout.content
    rw [split] at content ⊢
    simp only [flatMap_append, flatMap_singleton] at content ⊢
    rw [sameFront, ChangeLogDisk.frames_write, if_pos rfl, ← content, append_assoc]
  · intro empty
    dsimp only at empty
    omega
  · intro _
    refine ⟨last, ?_⟩
    rw [ChangeLogDisk.segment_write, if_pos rfl]
    simp
  · intro name mem
    have below := layout.below name mem
    omega

theorem Layout.appendFrame {rec : ChangeRecord} (offset : rec.offset = next) :
    Layout (log.appendFrame opts rec .written) (next + 1) ∧
      (log.appendFrame opts rec .written).records = log.records ++ [rec] ∧
      (log.appendFrame opts rec .written).highWatermark = log.highWatermark := by
  obtain ⟨selected, last, recs, watermark, _⟩ :=
    @Layout.selectSegment opts log next layout rec offset
  have positive : 0 < (log.selectSegment opts rec).activeSegmentSize + opts.frameSize rec := by
    rw [frameSize]
    omega
  refine ⟨selected.write last offset positive, ?_, watermark⟩
  simp [PartitionChangeLog.appendFrame, recs]

end

def frameEvents (recs : List ChangeRecord) : List ChangeLogEvent :=
  recs.map fun rec => .appendFrame rec .written

theorem appendFrames_complete {outs : Nat → FrameOutcome} {index : Nat}
    (complete : (appendFrames outs index recs).2 = true) :
    (appendFrames outs index recs).1 = frameEvents recs := by
  induction recs generalizing index with
  | nil => simp [appendFrames, frameEvents]
  | cons rec rest ih =>
    rw [appendFrames] at complete ⊢
    by_cases written : outs index = .written
    · rw [if_pos written] at complete ⊢
      simpa [frameEvents] using ih complete
    · rw [if_neg written] at complete
      simp at complete

theorem length_stamp {first : Nat} {ver : UInt64} {recs : List ChangeRecord} :
    (stamp opts first ver recs).length = recs.length :=
  length_mapIdx

theorem map_offset_stamp (first : Nat) (ver : UInt64) (recs : List ChangeRecord) :
    (stamp opts first ver recs).map offset = List.range' first recs.length := by
  apply ext_getElem
  · simp [length_stamp]
  · intro index inMap inRange
    simp [stamp]

theorem Layout.appendFrames (layout : Layout log next) {recs : List ChangeRecord}
    (offsets : recs.map offset = List.range' next recs.length) :
    Layout (run (apply opts) log (frameEvents recs)) (next + recs.length) ∧
      (run (apply opts) log (frameEvents recs)).records = log.records ++ recs ∧
      (run (apply opts) log (frameEvents recs)).highWatermark = log.highWatermark := by
  induction recs generalizing log next with
  | nil => simpa [run, frameEvents] using layout
  | cons rec rest ih =>
    simp only [map_cons, length_cons, range'_succ, cons.injEq] at offsets
    obtain ⟨appended, recs, watermark⟩ :=
      @Layout.appendFrame opts log next layout rec offsets.1
    obtain ⟨later, laterRecords, laterWatermark⟩ := ih appended offsets.2
    rw [recs, append_assoc, singleton_append] at laterRecords
    rw [add_assoc, add_comm 1] at later
    exact ⟨later, laterRecords, laterWatermark.trans watermark⟩

def batchEvents (opts : ChangeLogOptions) (log : PartitionChangeLog) (ver : UInt64)
    (recs : List ChangeRecord) : List ChangeLogEvent :=
  frameEvents (stamp opts (log.highWatermark + 1) ver recs) ++
    (if recs.isEmpty then [] else [.advance recs.length ver]) ++
    [.persistSnapshot]

theorem append_of_ok {out : AppendOutcome}
    (complete : (log.appendCommittedBatch opts ver recs out).2 = .ok ()) :
    ∃ manifest,
      (run (apply opts) log (batchEvents opts log ver recs)).makeManifest opts = .ok manifest ∧
        (log.appendCommittedBatch opts ver recs out).1 =
          batchEvents opts log ver recs ++ [.persistManifest manifest] := by
  rw [batchEvents]
  rw [appendCommittedBatch] at complete ⊢
  dsimp only at complete ⊢
  split at complete
  · rename_i framesWritten
    rw [if_pos framesWritten]
    rw [appendFrames_complete framesWritten] at complete ⊢
    split at complete
    · rename_i snap
      rw [if_pos snap]
      split at complete
      · simp at complete
      · rename_i manifest made
        split at complete
        · rename_i persisted
          rw [made]
          simp [persisted]
        · simp at complete
    · simp at complete
  · simp at complete

theorem foldlM_extendRange_name {pieces : List SegmentPiece} {start range : SegmentRange}
    (read : pieces.foldlM (extendRange opts) start = .ok range) : range.name = start.name := by
  induction pieces generalizing start with
  | nil =>
    simp only [foldlM_nil, pure, Except.pure, Except.ok.injEq] at read
    rw [read]
  | cons piece rest ih =>
    rw [foldlM_cons] at read
    cases piece with
    | torn => simp [extendRange, bind, Except.bind] at read
    | frame rec =>
      simp only [extendRange, bind, Except.bind] at read
      rw [ih read]

theorem segmentRange_ok {range : SegmentRange} (read : segmentRange opts disk name = .ok range) :
    range.name = name ∧ disk.segment name ≠ none := by
  rw [segmentRange] at read
  cases found : disk.segment name with
  | none =>
    rw [found] at read
    simp at read
  | some file =>
    rw [found] at read
    exact ⟨foldlM_extendRange_name read, by simp⟩

theorem mapM_segmentRange_ok
    {ranges : List SegmentRange} (read : names.mapM (segmentRange opts disk) = .ok ranges) :
    ranges.map SegmentRange.name = names ∧ ∀ name ∈ names, disk.segment name ≠ none := by
  induction names generalizing ranges with
  | nil =>
    simp only [mapM_nil, pure, Except.pure, Except.ok.injEq] at read
    simp [← read]
  | cons name rest ih =>
    rw [mapM_cons] at read
    simp only [bind, Except.bind] at read
    split at read
    · cases read
    rename_i range first
    split at read
    · cases read
    rename_i others later
    obtain ⟨sameName, present⟩ := segmentRange_ok first
    obtain ⟨sameNames, allPresent⟩ := ih later
    rw [← Except.ok.inj read, map_cons, sameName, sameNames]
    exact ⟨rfl, forall_mem_cons.mpr ⟨present, allPresent⟩⟩

theorem Layout.makeManifest (layout : Layout log next)
    (made : log.makeManifest opts = .ok manifest) :
    manifest.segments.map SegmentRange.name = log.segmentNames ∧
      ∀ name ∈ log.segmentNames, log.disk.segment name ≠ none := by
  have names : (if log.segmentNames.isEmpty then log.disk.names
      else log.segmentNames.insertionSort (· ≤ ·)) = log.segmentNames := by
    cases shape : log.segmentNames with
    | nil =>
      have noFiles : log.disk.segments = [] := by
        rw [eq_nil_iff_forall_not_mem]
        intro file mem
        have inNames := layout.listed file mem
        rw [shape] at inNames
        simp at inNames
      simp [ChangeLogDisk.names, noFiles]
    | cons first rest =>
      have sorted := layout.sorted
      rw [shape] at sorted
      have ordered : (first :: rest).Pairwise (· ≤ ·) := sorted.imp le_of_lt
      simpa using ordered.insertionSort_eq
  rw [PartitionChangeLog.makeManifest, names] at made
  split at made
  · cases made
  · rename_i ranges read
    rw [← Except.ok.inj made]
    exact mapM_segmentRange_ok read

structure Manifested (log : PartitionChangeLog) (manifest : ChangeLogManifest) : Prop where
  onDisk : log.disk.manifest = some manifest
  sorted : (manifest.segments.map SegmentRange.name).Pairwise (· < ·)
  listed : ∀ file ∈ log.disk.segments, file.name ∈ manifest.segments.map SegmentRange.name
  content : (manifest.segments.map SegmentRange.name).flatMap log.disk.frames = log.records

/-- The records have increasing offsets up to the watermark, the segments hold them, and
the manifest lists the segments. -/
structure Clean (log : PartitionChangeLog) : Prop where
  layout : Layout log (log.highWatermark + 1)
  ascending : log.records.Pairwise fun prev later => prev.offset < later.offset
  bounded : ∀ rec ∈ log.records, 0 < rec.offset ∧ rec.offset ≤ log.highWatermark
  manifest : ∃ manifest, Manifested log manifest

theorem Layout.persistManifest (layout : Layout log next)
    (made : log.makeManifest opts = .ok manifest) :
    Layout (log.apply opts (.persistManifest manifest)) next ∧
      Manifested (log.apply opts (.persistManifest manifest)) manifest := by
  obtain ⟨names, _⟩ := layout.makeManifest made
  refine ⟨⟨layout.sorted, layout.listed, layout.named, layout.content, layout.fresh,
    layout.begun, layout.below⟩, ⟨rfl, ?_, ?_, ?_⟩⟩
  · rw [names]
    exact layout.sorted
  · rw [names]
    exact layout.listed
  · rw [names]
    exact layout.content

theorem pairwise_offset_stamp (first : Nat) (ver : UInt64) (recs : List ChangeRecord) :
    (stamp opts first ver recs).Pairwise fun prev later => prev.offset < later.offset := by
  have ascending : ((stamp opts first ver recs).map offset).Pairwise (· < ·) := by
    rw [map_offset_stamp]
    exact pairwise_lt_range'
  exact pairwise_map.mp ascending

theorem offset_stamp_bounds {first : Nat} (mem : rec ∈ stamp opts first ver recs) :
    first ≤ rec.offset ∧ rec.offset < first + recs.length := by
  have inOffsets : rec.offset ∈ (stamp opts first ver recs).map offset := mem_map_of_mem mem
  rw [map_offset_stamp, mem_range'_1] at inOffsets
  exact inOffsets

theorem Layout.advance (layout : Layout log (log.highWatermark + 1)) (ver : UInt64)
    (recs : List ChangeRecord) :
    let advanced := run (apply opts) log (batchEvents opts log ver recs)
    Layout advanced (advanced.highWatermark + 1) ∧
      advanced.highWatermark = log.highWatermark + recs.length ∧
      advanced.records = log.records ++ stamp opts (log.highWatermark + 1) ver recs := by
  have offsets : (stamp opts (log.highWatermark + 1) ver recs).map
      offset = range' (log.highWatermark + 1)
        (stamp opts (log.highWatermark + 1) ver recs).length := by
    rw [map_offset_stamp, length_stamp]
  obtain ⟨layout, appended, watermark⟩ := @Layout.appendFrames opts log _ layout _ offsets
  rw [length_stamp, add_right_comm] at layout
  intro advanced
  cases empty : recs.isEmpty with
  | true =>
    have same : advanced = (run (apply opts) log
        (frameEvents (stamp opts (log.highWatermark + 1) ver recs))).apply
          opts .persistSnapshot := by
      simp [advanced, batchEvents, empty, run]
    have noRecords : recs.length = 0 := by
      simpa using empty
    have newWatermark : advanced.highWatermark = log.highWatermark := by
      rw [same, apply, watermark]
    rw [newWatermark, same]
    rw [noRecords] at layout ⊢
    exact ⟨⟨layout.sorted, layout.listed, layout.named, layout.content, layout.fresh,
      layout.begun, layout.below⟩, rfl, appended⟩
  | false =>
    have same : advanced = ((run (apply opts) log
        (frameEvents (stamp opts (log.highWatermark + 1) ver recs))).apply
          opts (.advance recs.length ver)).apply opts .persistSnapshot := by
      simp [advanced, batchEvents, empty, run]
    have newWatermark : advanced.highWatermark = log.highWatermark + recs.length := by
      rw [same, apply, apply, watermark]
    rw [newWatermark, same]
    exact ⟨⟨layout.sorted, layout.listed, layout.named, layout.content, layout.fresh,
      layout.begun, layout.below⟩, rfl, appended⟩

theorem Clean.append (clean : Clean log) {out : AppendOutcome}
    (complete : (log.appendCommittedBatch opts ver recs out).2 = .ok ()) :
    let appended := run (apply opts) log (log.appendCommittedBatch opts ver recs out).1
    Clean appended ∧ appended.records =
      log.records ++ stamp opts (log.highWatermark + 1) ver recs := by
  obtain ⟨manifest, made, events⟩ := append_of_ok complete
  obtain ⟨layout, watermark, extended⟩ :=
    @Layout.advance opts log clean.layout ver recs
  obtain ⟨persisted, manifested⟩ := layout.persistManifest made
  intro appended
  have same : appended = (run (apply opts) log
      (batchEvents opts log ver recs)).apply opts (.persistManifest manifest) := by
    simp [appended, events, run]
  have newRecords : appended.records =
      log.records ++ stamp opts (log.highWatermark + 1) ver recs := by
    rw [same]
    exact extended
  have newWatermark : appended.highWatermark = log.highWatermark + recs.length := by
    rw [same]
    exact watermark
  refine ⟨⟨?_, ?_, ?_, ?_⟩, newRecords⟩
  · rw [newWatermark, ← watermark, same]
    exact persisted
  · rw [newRecords, pairwise_append]
    refine ⟨clean.ascending, pairwise_offset_stamp _ _ _, ?_⟩
    intro prev before later new
    have lower := (clean.bounded prev before).2
    have upper := (offset_stamp_bounds new).1
    omega
  · rw [newRecords, newWatermark]
    intro rec mem
    rcases mem_append.mp mem with before | new
    · have bounds := clean.bounded rec before
      omega
    · have bounds := offset_stamp_bounds new
      omega
  · rw [same]
    exact ⟨manifest, manifested⟩

theorem Clean.refused (clean : Clean log) (offset : rec.offset = log.highWatermark + 1) :
    Clean (log.apply opts (.appendFrame rec .refused)) ∧
      (log.apply opts (.appendFrame rec .refused)).records = log.records := by
  obtain ⟨layout, _, recs, watermark, disk⟩ :=
    @Layout.selectSegment opts log _ clean.layout rec offset
  have same : log.apply opts (.appendFrame rec .refused) = log.selectSegment opts rec := by
    simp [apply, appendFrame]
  obtain ⟨manifest, manifested⟩ := clean.manifest
  rw [same]
  refine ⟨⟨?_, ?_, ?_, manifest, ?_⟩, recs⟩
  · rwa [watermark]
  · rw [recs]
    exact clean.ascending
  · rw [recs, watermark]
    exact clean.bounded
  · constructor
    · rw [disk]
      exact manifested.onDisk
    · exact manifested.sorted
    · rw [disk]
      exact manifested.listed
    · rw [disk, recs]
      exact manifested.content

/-! ## Opening a directory -/

/-- The watermark is the offset of the last record. -/
def LogScan.AtLast (scan : LogScan) : Prop :=
  scan.highWatermark = (scan.records.getLast?.map offset).getD 0

theorem scanSegment_ok
    {isLast : Bool} {manifest : Option ChangeLogManifest} {pieces : List SegmentPiece}
    {scan later : LogScan} {segment laterSegment : SegmentScan}
    (read : scanSegment opts isLast manifest pieces scan segment = .ok (later, laterSegment)) :
    later.records = scan.records ++ pieces.filterMap frame? ∧ (scan.AtLast → later.AtLast) ∧
      later.lastSegmentFirstOffset =
        if segment.validBytes = 0 then
          ((pieces.filterMap frame?).head?.map offset).getD scan.lastSegmentFirstOffset
        else scan.lastSegmentFirstOffset := by
  induction pieces generalizing scan segment with
  | nil =>
    simp only [scanSegment, Except.ok.injEq, Prod.mk.injEq] at read
    simp [read.1]
  | cons piece rest ih =>
    cases piece with
    | torn =>
      rw [scanSegment] at read
      split at read
      · simp at read
      · rename_i noMore
        have empty : rest = [] := not_not.mp noMore
        split at read
        · simp at read
        · simp only [Except.ok.injEq, Prod.mk.injEq] at read
          rw [← read.1, empty]
          simp [frame?, LogScan.AtLast]
    | frame rec =>
      rw [scanSegment] at read
      split at read
      · simp at read
      split at read
      · simp at read
      obtain ⟨recs, atLast, first⟩ := ih read
      refine ⟨?_, ?_, ?_⟩
      · simp [recs, frame?]
      · intro _
        apply atLast
        simp [LogScan.AtLast]
      · have positive : ¬ segment.validBytes + opts.frameSize rec = 0 := by
          rw [frameSize]
          omega
        rw [first, if_neg positive]
        simp [frame?]

theorem scanListed_ok {ranges : List SegmentRange} {scan later : LogScan}
    (named : ∀ file ∈ disk.segments, file.frames.head?.map offset = some file.name)
    (read : scanListed opts manifest disk ranges scan = .ok later) :
    later.records = scan.records ++ (ranges.map SegmentRange.name).flatMap disk.frames ∧
      (scan.AtLast → later.AtLast) ∧
      later.lastSegmentFirstOffset =
        (ranges.map SegmentRange.name).getLast?.getD scan.lastSegmentFirstOffset ∧
      ∀ name ∈ ranges.map SegmentRange.name, disk.segment name ≠ none := by
  induction ranges generalizing scan with
  | nil =>
    simp only [scanListed, Except.ok.injEq] at read
    simp [read]
  | cons range rest ih =>
    rw [scanListed] at read
    cases found : disk.segment range.name with
    | none =>
      rw [found] at read
      simp at read
    | some file =>
      rw [found] at read
      dsimp only at read
      split at read
      · cases read
      rename_i scanned segment segmentRead
      split at read
      · obtain ⟨fileMember, fileName⟩ := ChangeLogDisk.segment_eq_some found
        obtain ⟨recs, atLast, first⟩ := scanSegment_ok segmentRead
        obtain ⟨laterRecords, laterAtLast, laterFirst, present⟩ := ih read
        have frames : disk.frames range.name = file.frames := by
          simp [ChangeLogDisk.frames, found]
        have firstName : scanned.lastSegmentFirstOffset = range.name := by
          rw [first, if_pos rfl]
          have head := named file fileMember
          rw [SegmentFile.frames] at head
          rw [head, getD_some, fileName]
        refine ⟨?_, ?_, ?_, ?_⟩
        · rw [laterRecords, recs, map_cons, flatMap_cons, frames, append_assoc]
          rfl
        · intro before
          exact laterAtLast (atLast before)
        · rw [laterFirst, firstName, map_cons, getLast?_cons, getD_some]
        · rw [map_cons, forall_mem_cons, found]
          exact ⟨by simp, present⟩
      · simp at read

theorem recover_listed
    (onDisk : disk.manifest = some manifest) (read : recover opts disk = .ok log) :
    let names := manifest.segments.map SegmentRange.name
    ∃ scan made,
      scanListed opts manifest disk manifest.segments ⟨[], 0, 0, 0, 1, false⟩ = .ok scan ∧
      (ofScan opts disk scan names names).makeManifest opts = .ok made ∧
      log = (ofScan opts disk scan names names).apply opts (.persistManifest made) := by
  intro names
  rw [recover, onDisk] at read
  dsimp only at read
  split at read
  · simp at read
  split at read
  · cases read
  rename_i scan scanned
  split at read
  · rw [rewriteManifest] at read
    split at read
    · simp at read
    · split at read
      · cases read
      rename_i rewritten made
      exact ⟨scan, rewritten, scanned, made, (Except.ok.inj read).symm⟩
  · simp at read

section Truncate

variable (disk : ChangeLogDisk) (last : Nat)

def withoutTorn (file : SegmentFile) : SegmentFile :=
  if file.name = last then { file with pieces := file.pieces.filter fun piece => piece ≠ .torn }
  else file

theorem frames_withoutTorn (file : SegmentFile) :
    (withoutTorn last file).name = file.name ∧ (withoutTorn last file).frames = file.frames := by
  rw [withoutTorn]
  split
  · refine ⟨rfl, ?_⟩
    rw [frames, frames, filterMap_filter]
    apply filterMap_congr
    intro piece _
    cases piece with
    | frame rec => simp
    | torn => simp [frame?]
  · exact ⟨rfl, rfl⟩

theorem segment_truncateTorn (name : Nat) :
    (truncateTorn disk last).segment name = (disk.segment name).map (withoutTorn last) := by
  have sameName : ((fun file : SegmentFile => decide (file.name = name)) ∘ withoutTorn last) =
      fun file => decide (file.name = name) := by
    funext file
    rw [Function.comp_apply, (frames_withoutTorn last file).1]
  rw [ChangeLogDisk.segment, ChangeLogDisk.segment]
  change ((disk.segments.map (withoutTorn last)).find? fun file => decide (file.name = name)) = _
  rw [find?_map, sameName]

theorem frames_truncateTorn (name : Nat) :
    (truncateTorn disk last).frames name = disk.frames name := by
  rw [ChangeLogDisk.frames, ChangeLogDisk.frames, segment_truncateTorn]
  cases disk.segment name with
  | none => simp
  | some file => simp [(frames_withoutTorn last file).2]

end Truncate

structure SameSegments (before after : ChangeLogDisk) : Prop where
  frames : after.frames = before.frames
  missing : ∀ name, after.segment name = none ↔ before.segment name = none
  files : ∀ file ∈ after.segments, ∃ old ∈ before.segments,
    file.name = old.name ∧ file.frames = old.frames

theorem sameSegments_truncate (disk : ChangeLogDisk) (truncated : Bool) (last : Nat) :
    SameSegments disk (if truncated then truncateTorn disk last else disk) := by
  cases truncated with
  | false => exact ⟨rfl, fun _ => Iff.rfl, fun file mem => ⟨file, mem, rfl, rfl⟩⟩
  | true =>
    refine ⟨funext (frames_truncateTorn disk last), ?_, ?_⟩
    · intro name
      rw [if_pos rfl, segment_truncateTorn, map_eq_none_iff]
    · intro file mem
      obtain ⟨old, oldMember, rfl⟩ := mem_map.mp mem
      obtain ⟨sameName, sameFrames⟩ := frames_withoutTorn last old
      exact ⟨old, oldMember, sameName, sameFrames⟩

theorem offset_le_getLast (ascending : recs.Pairwise fun prev later => prev.offset < later.offset)
    (mem : rec ∈ recs) : rec.offset ≤ (recs.getLast?.map offset).getD 0 := by
  cases shape : recs.getLast? with
  | none =>
    rw [getLast?_eq_none_iff] at shape
    rw [shape] at mem
    simp at mem
  | some last =>
    obtain ⟨front, rfl⟩ := getLast?_eq_some_iff.mp shape
    rcases mem_append.mp mem with before | isLast
    · have less := (pairwise_append.mp ascending).2.2 rec before last (mem_singleton_self last)
      exact le_of_lt less
    · rw [mem_singleton.mp isLast]
      exact le_refl _

theorem segmentSize_pos {disk : ChangeLogDisk} {name : Nat} (filled : disk.frames name ≠ []) :
    0 < segmentSize opts disk name := by
  cases found : disk.segment name with
  | none => exact absurd (ChangeLogDisk.frames_eq_nil found) filled
  | some file =>
    obtain ⟨rec, mem⟩ := exists_mem_of_ne_nil _ filled
    rw [ChangeLogDisk.frames, found, map_some, getD_some, frames, mem_filterMap] at mem
    obtain ⟨piece, inFile, isFrame⟩ := mem
    cases piece with
    | torn => simp [frame?] at isFrame
    | frame written =>
      rw [segmentSize, found]
      refine lt_of_lt_of_le ?_ (single_le_sum (fun _ _ => zero_le _) _ (mem_map_of_mem inFile))
      dsimp only
      rw [frameSize]
      omega

theorem layout_ofScan {disk : ChangeLogDisk} {scan : LogScan} {names : List Nat}
    (sorted : names.Pairwise (· < ·)) (listed : ∀ file ∈ disk.segments, file.name ∈ names)
    (named : ∀ file ∈ disk.segments, file.frames.head?.map offset = some file.name)
    (present : ∀ name ∈ names, disk.segment name ≠ none)
    (content : scan.records = names.flatMap disk.frames) (atLast : scan.AtLast)
    (ascending : scan.records.Pairwise fun prev later => prev.offset < later.offset)
    (first : scan.lastSegmentFirstOffset = names.getLast?.getD 1) :
    Layout (ofScan opts disk scan names names) (scan.highWatermark + 1) := by
  have same := sameSegments_truncate disk scan.truncated (names.getLast?.getD 0)
  have filled : ∀ name ∈ names, ∃ rec ∈ disk.frames name, rec.offset = name := by
    intro name mem
    cases found : disk.segment name with
    | none => exact absurd found (present name mem)
    | some file =>
      obtain ⟨inDisk, sameName⟩ := ChangeLogDisk.segment_eq_some found
      obtain ⟨rec, isHead, offset⟩ := map_eq_some_iff.mp (named file inDisk)
      refine ⟨rec, ?_, offset.trans sameName⟩
      simpa [ChangeLogDisk.frames, found] using mem_of_head? isHead
  have bounded : ∀ name ∈ names, name < scan.highWatermark + 1 := by
    intro name mem
    obtain ⟨rec, inFrames, offset⟩ := filled name mem
    have inRecords : rec ∈ scan.records := by
      rw [content]
      exact mem_flatMap.mpr ⟨name, mem, inFrames⟩
    have upper := offset_le_getLast ascending inRecords
    rw [← atLast] at upper
    omega
  have lastName : ¬ scan.records.isEmpty = true →
      ∃ last, names.getLast? = some last ∧ last ∈ names := by
    intro some_record
    cases shape : names.getLast? with
    | none =>
      rw [getLast?_eq_none_iff] at shape
      rw [content, shape] at some_record
      simp at some_record
    | some last => exact ⟨last, rfl, mem_of_getLast? shape⟩
  have size : ∀ name ∈ names, 0 < segmentSize opts
      (if scan.truncated then truncateTorn disk (names.getLast?.getD 0) else disk) name := by
    intro name mem
    apply segmentSize_pos
    rw [same.frames]
    obtain ⟨rec, inFrames, _⟩ := filled name mem
    exact ne_nil_of_mem inFrames
  constructor
  · exact sorted
  · intro file mem
    obtain ⟨old, inDisk, sameName, _⟩ := same.files file mem
    rw [sameName]
    exact listed old inDisk
  · intro file mem
    obtain ⟨old, inDisk, sameName, sameFrames⟩ := same.files file mem
    rw [sameName, sameFrames]
    exact named old inDisk
  · exact (congrArg names.flatMap same.frames).trans content.symm
  · intro empty
    have noRecords : scan.records.isEmpty = true := by
      by_contra some_record
      obtain ⟨last, isLast, mem⟩ := lastName some_record
      have positive := size last mem
      rw [isLast, getD_some] at positive
      simp [ofScan, some_record, isLast] at empty
      omega
    refine ⟨by simp [ofScan, noRecords], ?_⟩
    rw [ofScan, same.missing, ChangeLogDisk.segment_eq_none_iff]
    intro file mem sameName
    have below := bounded file.name (listed file mem)
    omega
  · intro positive
    have some_record : ¬ scan.records.isEmpty = true := by
      intro noRecords
      simp [ofScan, noRecords] at positive
    obtain ⟨last, isLast, mem⟩ := lastName some_record
    have active : (ofScan opts disk scan names names).activeSegmentFirstOffset = last := by
      simp [ofScan, some_record, first, isLast]
    rw [active]
    refine ⟨isLast, ?_⟩
    rw [ofScan, ne_eq, same.missing]
    exact present last mem
  · intro name mem
    exact Or.inl (bounded name mem)

theorem Clean.recover (clean : Clean log) {reopened : PartitionChangeLog}
    (read : recover opts log.disk = .ok reopened) :
    Clean reopened ∧ reopened.records = log.records := by
  obtain ⟨manifest, manifested⟩ := clean.manifest
  obtain ⟨scan, made, scanned, rewritten, rfl⟩ := recover_listed manifested.onDisk read
  obtain ⟨recs, atLast, first, present⟩ := scanListed_ok clean.layout.named scanned
  rw [nil_append] at recs
  have sameRecords : scan.records = log.records := recs.trans manifested.content
  have last : scan.AtLast := atLast (by simp [LogScan.AtLast])
  have ascending : scan.records.Pairwise fun prev later => prev.offset < later.offset := by
    rw [sameRecords]
    exact clean.ascending
  have layout := @layout_ofScan opts log.disk scan _ manifested.sorted manifested.listed
    clean.layout.named present recs last ascending first
  obtain ⟨persisted, remanifested⟩ := layout.persistManifest rewritten
  refine ⟨⟨persisted, ascending, ?_, made, remanifested⟩, sameRecords⟩
  intro rec mem
  have inLog : rec ∈ log.records := sameRecords ▸ mem
  refine ⟨(clean.bounded rec inLog).1, ?_⟩
  have upper := offset_le_getLast ascending mem
  rwa [← last] at upper

/-- Logs that were created empty and have since seen whole appends, appends that failed at
the first frame without touching a file, and reopenings. -/
inductive Built (opts : ChangeLogOptions) : PartitionChangeLog → Prop
  | created {log : PartitionChangeLog} (read : openLog opts ⟨[], [], none⟩ = .ok log) :
      Built opts log
  | appended {log : PartitionChangeLog} (built : Built opts log) (commitVersion : UInt64)
      (recs : List ChangeRecord) (out : AppendOutcome)
      (complete : (log.appendCommittedBatch opts commitVersion recs out).2 = .ok ()) :
      Built opts (run (apply opts) log (log.appendCommittedBatch opts commitVersion recs out).1)
  | refused {log : PartitionChangeLog} (built : Built opts log) (record : ChangeRecord)
      (offset : record.offset = log.highWatermark + 1) :
      Built opts (log.apply opts (.appendFrame record .refused))
  | reopened {log reopened : PartitionChangeLog} (built : Built opts log)
      (read : openLog opts log.disk = .ok reopened) : Built opts reopened

theorem recover_of_openLog (read : openLog opts disk = .ok log) :
    recover opts disk = .ok log ∧ 0 < opts.maxFetchRecords ∧ 0 < opts.maxFetchBytes := by
  rw [openLog] at read
  split at read
  · simp at read
  · split at read
    · simp at read
    · rename_i limits
      exact ⟨read, by omega, by omega⟩

def emptyLog (opts : ChangeLogOptions) : PartitionChangeLog :=
  { records := []
    snapshotRecords := []
    earliestOffset := 1
    highWatermark := 0
    committedVersion := 0
    segmentNames := []
    activeSegmentFirstOffset := 1
    activeSegmentSize := 0
    disk := ⟨[], [], some ⟨opts.partitionId, opts.partitionEpoch, 1, 0, 0, []⟩⟩ }

theorem recover_empty : recover opts ⟨[], [], none⟩ = .ok (emptyLog opts) := by
  simp [recover, ChangeLogDisk.names, scanUnlisted, rewriteManifest, snapshotReadable, makeManifest,
    ofScan, apply, emptyLog, pure, Except.pure]

theorem clean_emptyLog : Clean (emptyLog opts) := by
  refine ⟨?_, ?_, ?_, ⟨opts.partitionId, opts.partitionEpoch, 1, 0, 0, []⟩, ?_⟩
  · constructor <;> simp [emptyLog, ChangeLogDisk.segment]
  · simp [emptyLog]
  · simp [emptyLog]
  · constructor <;> simp [emptyLog]

theorem Built.clean (built : Built opts log) : Clean log := by
  induction built with
  | created read =>
    have recovered := (recover_of_openLog read).1
    rw [recover_empty] at recovered
    rw [← Except.ok.inj recovered]
    exact clean_emptyLog
  | appended _ ver recs out complete ih => exact (ih.append complete).1
  | refused _ rec offset ih => exact (ih.refused offset).1
  | reopened _ read ih => exact (ih.recover (recover_of_openLog read).1).1

theorem Built.limits (built : Built opts log) :
    0 < opts.maxFetchRecords ∧ 0 < opts.maxFetchBytes := by
  induction built with
  | created read => exact (recover_of_openLog read).2
  | appended _ _ _ _ _ ih => exact ih
  | refused _ _ _ ih => exact ih
  | reopened _ _ ih => exact ih

end PartitionChangeLog

end CedarGraph
