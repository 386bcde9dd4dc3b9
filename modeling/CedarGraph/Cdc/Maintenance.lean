import CedarGraph.Cdc.Reopen

/-!
# Appending, compacting and reopening

`Compact` drops the records below an offset and rewrites the segments. The manifest keeps the
committed version of all records ever appended and, when no record is left, lists segments that
are then removed; `Recover` demands equality in both cases.
-/

namespace CedarGraph

open List Runs SegmentFile SegmentPiece ChangeRecord

namespace PartitionChangeLog

variable {opts : ChangeLogOptions} {log : PartitionChangeLog}

theorem selectSegment_fields (rec : ChangeRecord) :
    let selected := log.selectSegment opts rec
    selected.snapshotRecords = log.snapshotRecords ∧ selected.earliestOffset = log.earliestOffset ∧
      selected.committedVersion = log.committedVersion ∧ selected.disk = log.disk ∧
      ∀ name ∈ selected.segmentNames, name ∈ log.segmentNames ∨
        name = selected.activeSegmentFirstOffset := by
  dsimp only
  rw [selectSegment]
  split
  · split
    · refine ⟨rfl, rfl, rfl, rfl, ?_⟩
      intro name mem
      simpa using mem
    · exact ⟨rfl, rfl, rfl, rfl, fun _ mem => Or.inl mem⟩
  · split
    · refine ⟨rfl, rfl, rfl, rfl, ?_⟩
      intro name mem
      simpa using mem
    · exact ⟨rfl, rfl, rfl, rfl, fun _ mem => Or.inl mem⟩

/-- The listed segments have files, and these hold whole frames. -/
structure WholeFiles (log : PartitionChangeLog) : Prop where
  present : ∀ name ∈ log.segmentNames, log.disk.segment name ≠ none
  whole : ∀ file ∈ log.disk.segments, file.pieces = file.frames.map .frame

theorem WholeFiles.appendFrame (files : WholeFiles log) (rec : ChangeRecord) :
    WholeFiles (log.appendFrame opts rec .written) := by
  obtain ⟨_, _, _, sameDisk, names⟩ := @selectSegment_fields opts log rec
  constructor
  · intro name mem
    simp only [PartitionChangeLog.appendFrame] at mem ⊢
    rw [ChangeLogDisk.segment_write]
    split
    · simp
    · rename_i other
      rcases names name mem with before | active
      · rw [sameDisk]
        exact files.present name before
      · exact absurd active other
  · simp only [PartitionChangeLog.appendFrame]
    refine ChangeLogDisk.forall_mem_write _ _ _ ?_ ?_ ?_
    · rw [sameDisk]
      exact files.whole
    · rw [sameDisk]
      intro file mem _
      have before := files.whole file mem
      simp only [append, frames, filterMap_append, map_append]
      rw [frames] at before
      rw [← before]
      simp [frame?]
    · simp [frames, frame?]

theorem run_frameEvents (recs : List ChangeRecord) (log : PartitionChangeLog) :
    let after := run (apply opts) log (frameEvents recs)
    after.snapshotRecords = log.snapshotRecords ++ recs ∧
      after.earliestOffset = log.earliestOffset ∧
      after.committedVersion = log.committedVersion ∧
      after.disk.snapshot = log.disk.snapshot ∧ after.disk.manifest = log.disk.manifest ∧
      (WholeFiles log → WholeFiles after) ∧
      (recs ≠ [] ∨ 0 < log.activeSegmentSize → 0 < after.activeSegmentSize) := by
  induction recs generalizing log with
  | nil => simp [frameEvents, run]
  | cons rec rest ih =>
    obtain ⟨snap, earliest, sameVersion, sameDisk, _⟩ := @selectSegment_fields opts log rec
    obtain ⟨laterSnapshot, laterEarliest, laterVersion, laterFile, laterManifest, laterWhole,
        laterSize⟩ := ih (log.appendFrame opts rec .written)
    refine ⟨?_, ?_, ?_, ?_, ?_, ?_, ?_⟩
    · refine laterSnapshot.trans ?_
      simp [appendFrame, snap]
    · exact laterEarliest.trans earliest
    · exact laterVersion.trans sameVersion
    · refine laterFile.trans ?_
      simp [appendFrame, ChangeLogDisk.write, sameDisk]
    · refine laterManifest.trans ?_
      simp [appendFrame, ChangeLogDisk.write, sameDisk]
    · intro files
      exact laterWhole (files.appendFrame rec)
    · intro _
      apply laterSize
      right
      simp only [appendFrame, ChangeLogOptions.frameSize]
      omega

variable {recs : List ChangeRecord} {files : List SegmentFile} {file : SegmentFile}

theorem own_stamp {first : Nat} {ver : UInt64} {rec : ChangeRecord}
    (mem : rec ∈ stamp opts first ver recs) : Own opts rec ∧ rec.commitVersion = ver := by
  obtain ⟨index, lt, rfl⟩ := mem_iff_getElem.mp mem
  simp [stamp, Own]

/-- The log after the frames, the new watermark and the snapshot file of a batch. -/
def advanced (opts : ChangeLogOptions) (log : PartitionChangeLog) (ver : UInt64)
    (recs : List ChangeRecord) : PartitionChangeLog :=
  run (apply opts) log (batchEvents opts log ver recs)

theorem advanced_eq (ver : UInt64) (recs : List ChangeRecord) :
    let frames := run (apply opts) log (frameEvents (stamp opts (log.highWatermark + 1) ver recs))
    advanced opts log ver recs =
      (if recs.isEmpty then frames
        else frames.apply opts (.advance recs.length ver)).apply opts .persistSnapshot := by
  cases empty : recs.isEmpty with
  | true => simp [advanced, batchEvents, empty, run]
  | false => simp [advanced, batchEvents, empty, run]

section

variable (stored : Stored opts log)
include stored

theorem Stored.advanced_fields (ver : UInt64) (recs : List ChangeRecord) :
    let after := advanced opts log ver recs
    after.earliestOffset = log.earliestOffset ∧
      after.committedVersion =
        (if recs.isEmpty then log.committedVersion
          else max log.committedVersion ver) ∧
      WholeFiles after ∧ (∀ rec ∈ after.snapshotRecords, Own opts rec) ∧
      (∀ rec ∈ after.disk.snapshot, Own opts rec) ∧
      (log.records ≠ [] ∨ recs ≠ [] → 0 < after.activeSegmentSize) := by
  obtain ⟨snap, earliest, sameVersion, _, _, whole, size⟩ := @run_frameEvents opts
    (stamp opts (log.highWatermark + 1) ver recs) log
  have files := whole ⟨stored.present, stored.whole⟩
  have own : ∀ rec ∈ (run (apply opts) log (frameEvents
      (stamp opts (log.highWatermark + 1) ver recs))).snapshotRecords,
      Own opts rec := by
    rw [snap, forall_mem_append]
    exact ⟨stored.ownSnapshot, fun rec mem => (own_stamp mem).1⟩
  have positive : ¬ log.earliestOffset = 0 := Nat.pos_iff_ne_zero.mp stored.positive
  have grows : log.records ≠ [] ∨ recs ≠ [] → 0 < (run (apply opts) log
      (frameEvents (stamp opts (log.highWatermark + 1) ver recs))).activeSegmentSize := by
    intro some_record
    apply size
    rcases some_record with old | new
    · exact Or.inr (stored.growing old)
    · left
      simpa [stamp] using new
  dsimp only
  rw [advanced_eq]
  cases empty : recs.isEmpty with
  | true =>
    simp only [if_true, apply]
    exact ⟨earliest, sameVersion, ⟨files.present, files.whole⟩, own, own, grows⟩
  | false =>
    simp only [Bool.false_eq_true, if_false, apply, earliest, positive, sameVersion]
    exact ⟨trivial, trivial, ⟨files.present, files.whole⟩, own, own, grows⟩

theorem Stored.contiguous_advanced (ver : UInt64) (recs : List ChangeRecord) :
    (advanced opts log ver recs).records.map ChangeRecord.offset =
      List.range' log.earliestOffset (advanced opts log ver recs).records.length ∧
    log.earliestOffset + (advanced opts log ver recs).records.length =
      (advanced opts log ver recs).highWatermark + 1 := by
  obtain ⟨_, watermark, extended⟩ :=
    @Layout.advance opts log stored.layout ver recs
  have reaches := stored.reaches
  rw [advanced, extended, watermark, length_append, length_stamp]
  refine ⟨?_, by omega⟩
  rw [map_append, stored.contiguous, map_offset_stamp, ← range'_append_1, reaches]

theorem Stored.makeManifest_advanced (ver : UInt64) (recs : List ChangeRecord) :
    let after := advanced opts log ver recs
    after.makeManifest opts = .ok ⟨opts.partitionId, opts.partitionEpoch,
      after.earliestOffset, after.highWatermark, after.committedVersion,
      after.segmentNames.map fun name => rangeOf opts name (after.disk.frames name)⟩ := by
  obtain ⟨layout, _, _⟩ := @Layout.advance opts log stored.layout ver recs
  obtain ⟨_, _, files, _, _, _⟩ := stored.advanced_fields ver recs
  obtain ⟨contiguous, _⟩ := stored.contiguous_advanced ver recs
  rw [← advanced] at layout
  intro after
  by_cases someName : after.segmentNames = []
  · have noFiles : after.disk.segments = [] := by
      rw [eq_nil_iff_forall_not_mem]
      intro file mem
      have inNames : file.name ∈ after.segmentNames := layout.listed file mem
      rw [someName] at inNames
      simp at inNames
    simp [makeManifest, someName, ChangeLogDisk.names, noFiles, pure, Except.pure]
  · refine makeManifest_frames layout.sorted someName ?_ ?_
    · intro name mem
      exact segment_whole files.whole (files.present name mem)
    · intro name mem rec inFrames
      have content : after.segmentNames.flatMap after.disk.frames = after.records :=
        layout.content
      have inRecords : rec ∈ after.records := by
        rw [← content]
        exact mem_flatMap.mpr ⟨name, mem, inFrames⟩
      have inOffsets : rec.offset ∈ after.records.map offset :=
        mem_map_of_mem inRecords
      rw [contiguous, mem_range'_1] at inOffsets
      have positive := stored.positive
      omega

theorem Stored.append {ver : UInt64} {out : AppendOutcome}
    (complete : (log.appendCommittedBatch opts ver recs out).2 = .ok ()) :
    let appended := run (apply opts) log (log.appendCommittedBatch opts ver recs out).1
    Stored opts appended ∧ appended.records =
      log.records ++ stamp opts (log.highWatermark + 1) ver recs := by
  obtain ⟨manifest, made, events⟩ := append_of_ok complete
  obtain ⟨layout, watermark, extended⟩ :=
    @Layout.advance opts log stored.layout ver recs
  obtain ⟨earliest, sameVersion, files, ownSnapshot, ownDisk, grows⟩ :=
    stored.advanced_fields ver recs
  obtain ⟨contiguous, reaches⟩ := stored.contiguous_advanced ver recs
  have described := stored.makeManifest_advanced ver recs
  rw [← advanced] at made layout watermark extended
  rw [described, Except.ok.injEq] at made
  intro appended
  have same : appended = (advanced opts log ver recs).apply opts (.persistManifest manifest) := by
    simp [appended, events, run, advanced]
  rw [same]
  refine ⟨⟨(layout.persistManifest (described.trans (congrArg _ made))).1, files.present,
    files.whole, ?_, ?_, ?_, ?_, ownSnapshot, ownDisk, ?_, ?_, ?_, ?_⟩, extended⟩
  · simp only [apply, earliest]
    exact contiguous
  · simp only [apply, earliest]
    exact reaches
  · simp only [apply, earliest]
    exact stored.positive
  · simp only [apply, extended, forall_mem_append]
    exact ⟨stored.own, fun rec mem => (own_stamp mem).1⟩
  · simp only [apply, extended, sameVersion, forall_mem_append]
    cases empty : recs.isEmpty with
    | true =>
      have noRecords : recs = [] := isEmpty_iff.mp empty
      simpa [noRecords, stamp] using stored.versions
    | false =>
      obtain ⟨left, right, _⟩ := max_version log.committedVersion ver
      refine ⟨?_, ?_⟩
      · intro rec mem
        exact UInt64.le_trans (stored.versions rec mem) left
      · intro rec mem
        rw [(own_stamp mem).2]
        exact right
  · simp only [apply, watermark, sameVersion]
    intro unused
    have noRecords : recs = [] := eq_nil_of_length_eq_zero (by omega)
    simpa [noRecords] using stored.unused (by omega)
  · simp only [apply, extended]
    intro some_record
    apply grows
    by_cases old : log.records = []
    · right
      intro new
      simp [old, new, stamp] at some_record
    · exact Or.inl old
  · refine ⟨_, congrArg some made.symm, ?_⟩
    intro _
    simp [apply, ChangeLogDisk.frames, ChangeLogDisk.segment]

end

def extendLast (piece : SegmentPiece) : List SegmentFile → List SegmentFile
  | [] => []
  | [file] => [file.append piece]
  | file :: rest => file :: extendLast piece rest

/-- One round of the loop of `RewriteSegmentsLocked`, over the segments written so far and
the size of the last one. -/
def cutRecord (opts : ChangeLogOptions) (state : List SegmentFile × Nat)
    (rec : ChangeRecord) : List SegmentFile × Nat :=
  if state.2 = 0 ∨ opts.maxSegmentBytes < state.2 + opts.frameSize rec then
    (state.1 ++ [⟨rec.offset, [.frame rec]⟩], opts.frameSize rec)
  else (extendLast (.frame rec) state.1, state.2 + opts.frameSize rec)

/-- The new files replace the ones of their names. -/
def installSegments (disk : ChangeLogDisk) (files : List SegmentFile) : ChangeLogDisk :=
  { disk with
    segments := (disk.segments.filter fun file => file.name ∉ files.map name) ++ files }

def removeSegments (disk : ChangeLogDisk) (retained : List Nat) : ChangeLogDisk :=
  { disk with segments := disk.segments.filter fun file => file.name ∈ retained }

/-- The manifest is written before the old segments are removed. -/
def rewriteSegments (opts : ChangeLogOptions) (log : PartitionChangeLog) :
    Except Status PartitionChangeLog :=
  let files := (log.records.foldl (cutRecord opts) ([], 0)).1
  let names := files.map name
  let installed :=
    { log with segmentNames := names, disk := installSegments log.disk files }
  match installed.makeManifest opts with
  | .error status => .error status
  | .ok manifest =>
    let disk :=
      { removeSegments installed.disk names with manifest := some manifest }
    match names.getLast? with
    | none =>
      .ok { installed with
        activeSegmentFirstOffset := log.highWatermark + 1
        activeSegmentSize := 0
        disk }
    | some last =>
      .ok { installed with
        activeSegmentFirstOffset := last
        activeSegmentSize := segmentSize opts disk last
        disk }

def retainFrom (log : PartitionChangeLog) (offset : Nat) : PartitionChangeLog :=
  let recs := log.records.filter fun rec => ¬ rec.offset < offset
  { log with
    records := recs
    earliestOffset :=
      (recs.head?.map ChangeRecord.offset).getD (log.highWatermark + 1) }

def compact (opts : ChangeLogOptions) (log : PartitionChangeLog) (retainFromOffset : Nat) :
    Except Status PartitionChangeLog :=
  if retainFromOffset = 0 ∨ retainFromOffset ≤ log.earliestOffset then .ok log
  else rewriteSegments opts (log.retainFrom retainFromOffset)

structure Cut (files : List SegmentFile) (recs : List ChangeRecord) : Prop where
  content : files.flatMap frames = recs
  named : ∀ file ∈ files, file.frames.head?.map ChangeRecord.offset = some file.name
  whole : ∀ file ∈ files, file.pieces = file.frames.map .frame

theorem frames_append (file : SegmentFile) (rec : ChangeRecord) :
    (file.append (.frame rec)).frames = file.frames ++ [rec] := by
  simp [append, frames, frame?]

theorem Cut.extendLast (cut : Cut files recs) (some_file : files ≠ []) (rec : ChangeRecord) :
    Cut (extendLast (.frame rec) files) (recs ++ [rec]) := by
  induction files generalizing recs with
  | nil => exact absurd rfl some_file
  | cons file rest ih =>
    obtain ⟨fileNamed, restNamed⟩ := forall_mem_cons.mp cut.named
    obtain ⟨fileWhole, restWhole⟩ := forall_mem_cons.mp cut.whole
    have content := cut.content
    rw [flatMap_cons] at content
    cases rest with
    | nil =>
      rw [flatMap_nil, append_nil] at content
      refine ⟨?_, ?_, ?_⟩
      · simp [extendLast, frames_append, content]
      · simp only [extendLast, forall_mem_singleton, frames_append]
        cases shape : file.frames with
        | nil =>
          rw [shape] at fileNamed
          simp at fileNamed
        | cons first others =>
          rw [shape] at fileNamed
          simpa [append] using fileNamed
      · simp only [extendLast, forall_mem_singleton, frames_append]
        simp [append, fileWhole]
    | cons next others =>
      have restCut : Cut (next :: others) ((next :: others).flatMap frames) :=
        ⟨rfl, restNamed, restWhole⟩
      have extended := ih restCut (by simp)
      refine ⟨?_, ?_, ?_⟩
      · rw [extendLast, flatMap_cons, extended.content, ← append_assoc, content]
        simp
      · rw [extendLast, forall_mem_cons]
        · exact ⟨fileNamed, extended.named⟩
        · simp
      · rw [extendLast, forall_mem_cons]
        · exact ⟨fileWhole, extended.whole⟩
        · simp

theorem cut_foldl (recs : List ChangeRecord) :
    Cut (recs.foldl (cutRecord opts) ([], 0)).1 recs := by
  have loop : ∀ (rest done : List ChangeRecord) (state : List SegmentFile × Nat),
      Cut state.1 done → (0 < state.2 → state.1 ≠ []) →
      Cut (rest.foldl (cutRecord opts) state).1 (done ++ rest) := by
    intro rest
    induction rest with
    | nil =>
      intro done state cut _
      rw [append_nil]
      exact cut
    | cons rec rest ih =>
      intro done state cut opened
      rw [foldl_cons, ← singleton_append, ← append_assoc]
      rw [cutRecord]
      split
      · apply ih
        · refine ⟨?_, ?_, ?_⟩
          · simp [cut.content, frames, frame?]
          · rw [forall_mem_append]
            exact ⟨cut.named, by simp [frames, frame?]⟩
          · rw [forall_mem_append]
            exact ⟨cut.whole, by simp [frames, frame?]⟩
        · simp
      · rename_i fits
        have some_file : state.1 ≠ [] := opened (by omega)
        apply ih
        · exact cut.extendLast some_file rec
        · intro _ empty
          have content := (cut.extendLast some_file rec).content
          simp only at empty
          rw [empty] at content
          simp at content
  have whole := loop recs [] ([], 0) ⟨rfl, by simp, by simp⟩ (by simp)
  simpa using whole

theorem Cut.head_mem (cut : Cut files recs) (mem : file ∈ files) :
    ∃ rec ∈ file.frames, rec ∈ recs ∧ rec.offset = file.name := by
  obtain ⟨rec, isHead, offset⟩ := Option.map_eq_some_iff.mp (cut.named file mem)
  have inFrames := mem_of_head? isHead
  refine ⟨rec, inFrames, ?_, offset⟩
  rw [← cut.content]
  exact mem_flatMap.mpr ⟨file, mem, inFrames⟩

theorem Cut.sorted (cut : Cut files recs)
    (ascending : recs.Pairwise fun prev later => prev.offset < later.offset) :
    (files.map name).Pairwise (· < ·) := by
  induction files generalizing recs with
  | nil => simp
  | cons file rest ih =>
    have content := cut.content
    rw [flatMap_cons] at content
    rw [← content, pairwise_append] at ascending
    obtain ⟨_, restAscending, across⟩ := ascending
    obtain ⟨head, inFile, _, headOffset⟩ := cut.head_mem mem_cons_self
    have restCut : Cut rest (rest.flatMap frames) :=
      ⟨rfl, (forall_mem_cons.mp cut.named).2, (forall_mem_cons.mp cut.whole).2⟩
    rw [map_cons, pairwise_cons]
    refine ⟨?_, ih restCut restAscending⟩
    intro name mem
    obtain ⟨other, inRest, rfl⟩ := mem_map.mp mem
    obtain ⟨rec, _, inRecords, offset⟩ := restCut.head_mem inRest
    rw [← headOffset, ← offset]
    exact across head inFile rec inRecords

theorem find_name (distinct : (files.map name).Pairwise (· < ·)) (mem : file ∈ files) :
    (files.find? fun other => other.name = file.name) = some file := by
  induction files with
  | nil => simp at mem
  | cons first rest ih =>
    rw [map_cons, pairwise_cons] at distinct
    rcases mem_cons.mp mem with rfl | inRest
    · simp
    · have before := distinct.1 file.name (mem_map_of_mem inRest)
      have ne : ¬ first.name = file.name := by omega
      rw [find?_cons_of_neg (by simpa using ne)]
      exact ih distinct.2 inRest

theorem filter_contiguous
    {start : Nat} (contiguous : recs.map ChangeRecord.offset = List.range' start recs.length)
    (offset : Nat) :
    (recs.filter fun rec => ¬ rec.offset < offset) = recs.drop (offset - start) := by
  induction recs generalizing start with
  | nil => simp
  | cons rec rest ih =>
    rw [length_cons, range'_succ, map_cons, cons.injEq] at contiguous
    obtain ⟨first, later⟩ := contiguous
    by_cases dropped : rec.offset < offset
    · have count : offset - start = (offset - (start + 1)) + 1 := by omega
      rw [filter_cons_of_neg (by simpa using dropped), ih later, count, drop_succ_cons]
    · have none : offset - start = 0 := by omega
      have noneLater : offset - (start + 1) = 0 := by omega
      rw [filter_cons_of_pos (by simpa using dropped), ih later, none,
        noneLater, drop_zero, drop_zero]

theorem Stored.retainFrom
    (stored : Stored opts log) {offset : Nat} (later : log.earliestOffset < offset) :
    let kept := log.retainFrom offset
    kept.records.map ChangeRecord.offset = List.range' kept.earliestOffset kept.records.length ∧
      kept.earliestOffset + kept.records.length = log.highWatermark + 1 ∧
      0 < kept.earliestOffset ∧ ∀ rec ∈ kept.records, rec ∈ log.records := by
  have reaches := stored.reaches
  have dropped := filter_contiguous stored.contiguous offset
  have offsets : (log.records.drop (offset - log.earliestOffset)).map ChangeRecord.offset =
      range' (log.earliestOffset + (offset - log.earliestOffset))
        (log.records.length - (offset - log.earliestOffset)) := by
    rw [map_drop, stored.contiguous, drop_range']
    simp
  intro kept
  have keptRecords : kept.records = log.records.drop (offset - log.earliestOffset) := dropped
  have members : ∀ rec ∈ kept.records, rec ∈ log.records := by
    intro rec mem
    exact (mem_filter.mp mem).1
  have earliest : kept.earliestOffset =
      (kept.records.head?.map ChangeRecord.offset).getD (log.highWatermark + 1) := rfl
  cases shape : kept.records with
  | nil =>
    rw [shape] at earliest
    simp only [head?_nil, Option.map_none, Option.getD_none] at earliest
    simp [earliest]
  | cons first rest =>
    have length := congrArg length (shape.symm.trans keptRecords)
    rw [length_cons, length_drop] at length
    have offsetsKept := congrArg (map ChangeRecord.offset) (shape.symm.trans keptRecords)
    rw [offsets, ← length, map_cons, range'_succ, cons.injEq] at offsetsKept
    rw [shape] at earliest members
    simp only [head?_cons, Option.map_some, Option.getD_some] at earliest
    refine ⟨?_, ?_, ?_, members⟩
    · rw [earliest, map_cons, length_cons, range'_succ, offsetsKept.1, offsetsKept.2]
    · rw [earliest, length_cons, offsetsKept.1]
      omega
    · rw [earliest, offsetsKept.1]
      omega

def rewrittenFiles (opts : ChangeLogOptions) (recs : List ChangeRecord) : List SegmentFile :=
  (recs.foldl (cutRecord opts) ([], 0)).1

theorem segments_removed (disk : ChangeLogDisk) (files : List SegmentFile) :
    (removeSegments (installSegments disk files) (files.map name)).segments = files := by
  have old : ((disk.segments.filter fun file => file.name ∉ files.map name).filter
      fun file => file.name ∈ files.map name) = [] := by
    rw [filter_filter, filter_eq_nil_iff]
    intro file _
    simp
  have new : (files.filter fun file => file.name ∈ files.map name) = files := by
    rw [filter_eq_self]
    intro file mem
    exact decide_eq_true (mem_map_of_mem mem)
  simp only [removeSegments, installSegments, filter_append]
  rw [old, new, nil_append]

theorem segment_installed {disk : ChangeLogDisk} (sorted : (files.map name).Pairwise (· < ·))
    (mem : file ∈ files) : (installSegments disk files).segment file.name = some file := by
  have replaced : ((disk.segments.filter fun file =>
      file.name ∉ files.map name).find? fun other => other.name = file.name) = none := by
    rw [find?_eq_none]
    intro other inOld same
    have kept := (mem_filter.mp inOld).2
    rw [of_decide_eq_true same] at kept
    simp only [decide_eq_true_eq] at kept
    exact kept (mem_map_of_mem mem)
  rw [ChangeLogDisk.segment, installSegments, find?_append, replaced, Option.none_or]
  exact find_name sorted mem

section Rewritten

variable {files : List SegmentFile} {recs : List ChangeRecord}

theorem segment_cut (segments : log.disk.segments = files)
    (sorted : (files.map name).Pairwise (· < ·)) {file : SegmentFile} (mem : file ∈ files) :
    log.disk.segment file.name = some file ∧ log.disk.frames file.name = file.frames := by
  have found : log.disk.segment file.name = some file := by
    rw [ChangeLogDisk.segment, segments]
    exact find_name sorted mem
  refine ⟨found, ?_⟩
  rw [ChangeLogDisk.frames, found, Option.map_some, Option.getD_some]

theorem layout_cut (cut : Cut files recs) (sorted : (files.map name).Pairwise (· < ·))
    (segments : log.disk.segments = files)
    (names : log.segmentNames = files.map name) (sameRecords : log.records = recs)
    {next : Nat} (below : ∀ rec ∈ recs, rec.offset < next)
    (fresh : files = [] → log.activeSegmentFirstOffset = next ∧ log.activeSegmentSize = 0)
    (begun : ∀ last, (files.map name).getLast? = some last →
      log.activeSegmentFirstOffset = last ∧ 0 < log.activeSegmentSize) : Layout log next := by
  have emptyOfSize : log.activeSegmentSize = 0 → files = [] := by
    intro empty
    by_contra some_file
    have some_name : files.map name ≠ [] := by
      simpa using some_file
    have positive := (begun _ (getLast?_eq_some_getLast some_name)).2
    omega
  constructor
  · rw [names]
    exact sorted
  · rw [names, segments]
    exact fun file mem => mem_map_of_mem mem
  · rw [segments]
    exact cut.named
  · rw [names, sameRecords, ← cut.content, flatMap_map]
    apply flatMap_congr
    intro file mem
    exact (segment_cut segments sorted mem).2
  · intro empty
    refine ⟨(fresh (emptyOfSize empty)).1, ?_⟩
    rw [ChangeLogDisk.segment, segments, emptyOfSize empty]
    simp
  · intro positive
    rw [names]
    cases shape : (files.map name).getLast? with
    | none =>
      have noFiles : files = [] := by
        simpa using shape
      have size := (fresh noFiles).2
      omega
    | some last =>
      have active := (begun last shape).1
      refine ⟨by rw [active], ?_⟩
      obtain ⟨file, mem, rfl⟩ := mem_map.mp (mem_of_getLast? shape)
      rw [active, (segment_cut segments sorted mem).1]
      simp
  · intro name mem
    rw [names] at mem
    obtain ⟨file, inFiles, rfl⟩ := mem_map.mp mem
    obtain ⟨rec, _, inRecords, offset⟩ := cut.head_mem inFiles
    left
    rw [← offset]
    exact below rec inRecords

end Rewritten

def installed (opts : ChangeLogOptions) (kept : PartitionChangeLog) : PartitionChangeLog :=
  { kept with
    segmentNames := (rewrittenFiles opts kept.records).map name
    disk := installSegments kept.disk (rewrittenFiles opts kept.records) }

structure Rewritten (opts : ChangeLogOptions) (kept : PartitionChangeLog)
    (manifest : ChangeLogManifest) (compacted : PartitionChangeLog) : Prop where
  records : compacted.records = kept.records
  snapshotRecords : compacted.snapshotRecords = kept.snapshotRecords
  earliestOffset : compacted.earliestOffset = kept.earliestOffset
  highWatermark : compacted.highWatermark = kept.highWatermark
  committedVersion : compacted.committedVersion = kept.committedVersion
  segmentNames : compacted.segmentNames = (rewrittenFiles opts kept.records).map name
  segments : compacted.disk.segments = rewrittenFiles opts kept.records
  snapshot : compacted.disk.snapshot = kept.disk.snapshot
  onDisk : compacted.disk.manifest = some manifest
  fresh : rewrittenFiles opts kept.records = [] →
    compacted.activeSegmentFirstOffset = kept.highWatermark + 1 ∧ compacted.activeSegmentSize = 0
  begun : ∀ last,
    ((rewrittenFiles opts kept.records).map name).getLast? = some last →
      compacted.activeSegmentFirstOffset = last ∧
        compacted.activeSegmentSize = segmentSize opts compacted.disk last

theorem rewriteSegments_ok
    {kept compacted : PartitionChangeLog}
    (done : rewriteSegments opts kept = .ok compacted) :
    ∃ manifest, Rewritten opts kept manifest compacted ∧
      (installed opts kept).makeManifest opts = .ok manifest := by
  rw [rewriteSegments] at done
  rw [← rewrittenFiles] at done
  dsimp only at done
  rw [segments_removed] at done
  cases made : (installed opts kept).makeManifest opts with
  | error status =>
    rw [installed] at made
    rw [made] at done
    simp at done
  | ok manifest =>
    rw [installed] at made
    rw [made] at done
    refine ⟨manifest, ?_, rfl⟩
    dsimp only at done
    split at done
    · rename_i noName
      rw [← Except.ok.inj done]
      refine ⟨rfl, rfl, rfl, rfl, rfl, rfl, rfl, rfl, rfl, fun _ => ⟨rfl, rfl⟩, ?_⟩
      intro last isLast
      rw [noName] at isLast
      simp at isLast
    · rename_i last isLast
      rw [← Except.ok.inj done]
      refine ⟨rfl, rfl, rfl, rfl, rfl, rfl, rfl, rfl, rfl, ?_, ?_⟩
      · intro noFiles
        rw [noFiles] at isLast
        simp at isLast
      · intro other isOther
        rw [isLast, Option.some.injEq] at isOther
        rw [← isOther]
        exact ⟨rfl, rfl⟩

theorem makeManifest_watermarks
    {manifest : ChangeLogManifest} (made : log.makeManifest opts = .ok manifest) :
    manifest = ⟨opts.partitionId, opts.partitionEpoch, log.earliestOffset,
      log.highWatermark, log.committedVersion, manifest.segments⟩ := by
  rw [makeManifest] at made
  split at made
  · simp at made
  · rw [← Except.ok.inj made]

theorem Rewritten.segments_described
    {kept compacted : PartitionChangeLog} {manifest : ChangeLogManifest}
    (rewritten : Rewritten opts kept manifest compacted)
    (cut : Cut (rewrittenFiles opts kept.records) kept.records)
    (sorted : ((rewrittenFiles opts kept.records).map name).Pairwise (· < ·))
    (positive : ∀ rec ∈ kept.records, 0 < rec.offset)
    (some_file : rewrittenFiles opts kept.records ≠ [])
    (made : (installed opts kept).makeManifest opts = .ok manifest) :
    manifest.segments =
      compacted.segmentNames.map fun name => rangeOf opts name (compacted.disk.frames name) := by
  have some_name : (rewrittenFiles opts kept.records).map name ≠ [] := by
    simpa using some_file
  have computed :=
    @makeManifest_frames opts (installed opts kept) compacted.disk.frames sorted some_name ?_ ?_
  · rw [computed] at made
    rw [rewritten.segmentNames, ← Except.ok.inj made]
    rfl
  · intro name mem
    obtain ⟨file, inFiles, rfl⟩ := mem_map.mp mem
    rw [installed, segment_installed sorted inFiles,
      (segment_cut rewritten.segments sorted inFiles).2, ← cut.whole file inFiles]
  · intro name mem rec inFrames
    obtain ⟨file, inFiles, rfl⟩ := mem_map.mp mem
    rw [(segment_cut rewritten.segments sorted inFiles).2] at inFrames
    apply positive
    rw [← cut.content]
    exact mem_flatMap.mpr ⟨file, inFiles, inFrames⟩

theorem Stored.compact
    (stored : Stored opts log) {retainFromOffset : Nat} {compacted : PartitionChangeLog}
    (done : compact opts log retainFromOffset = .ok compacted) : Stored opts compacted := by
  rw [PartitionChangeLog.compact] at done
  split at done
  · rw [← Except.ok.inj done]
    exact stored
  rename_i moves
  have later : log.earliestOffset < retainFromOffset := by omega
  obtain ⟨contiguous, reaches, positive, members⟩ := stored.retainFrom later
  obtain ⟨manifest, rewritten, made⟩ := rewriteSegments_ok done
  have cut := @cut_foldl opts (log.retainFrom retainFromOffset).records
  rw [← rewrittenFiles] at cut
  have offsets : ∀ rec ∈ (log.retainFrom retainFromOffset).records,
      0 < rec.offset ∧ rec.offset < log.highWatermark + 1 := by
    intro rec mem
    have inOffsets : rec.offset ∈
        (log.retainFrom retainFromOffset).records.map offset :=
      mem_map_of_mem mem
    rw [contiguous, mem_range'_1] at inOffsets
    omega
  have ascending : (log.retainFrom retainFromOffset).records.Pairwise
      fun prev later => prev.offset < later.offset := by
    have sortedOffsets : ((log.retainFrom retainFromOffset).records.map
        offset).Pairwise (· < ·) := by
      rw [contiguous]
      exact pairwise_lt_range'
    exact pairwise_map.mp sortedOffsets
  have sorted := cut.sorted ascending
  have lookup : ∀ file ∈ rewrittenFiles opts (log.retainFrom retainFromOffset).records,
      compacted.disk.segment file.name = some file ∧
        compacted.disk.frames file.name = file.frames :=
    fun file mem => segment_cut rewritten.segments sorted mem
  have below : ∀ rec ∈ (log.retainFrom retainFromOffset).records,
      rec.offset < log.highWatermark + 1 := fun rec mem => (offsets rec mem).2
  have sameWatermark : compacted.highWatermark = log.highWatermark := rewritten.highWatermark
  have sameVersion : compacted.committedVersion = log.committedVersion :=
    rewritten.committedVersion
  have begun : ∀ last, ((rewrittenFiles opts (log.retainFrom retainFromOffset).records).map
      name).getLast? = some last →
      compacted.activeSegmentFirstOffset = last ∧ 0 < compacted.activeSegmentSize := by
    intro last isLast
    obtain ⟨active, size⟩ := rewritten.begun last isLast
    obtain ⟨file, mem, rfl⟩ := mem_map.mp (mem_of_getLast? isLast)
    refine ⟨active, ?_⟩
    rw [size]
    apply segmentSize_pos
    rw [(lookup file mem).2]
    obtain ⟨rec, inFrames, _⟩ := cut.head_mem mem
    exact ne_nil_of_mem inFrames
  refine ⟨?_, ?_, ?_, ?_, ?_, ?_, ?_, ?_, ?_, ?_, ?_, ?_, ?_⟩
  · rw [sameWatermark]
    exact layout_cut cut sorted rewritten.segments rewritten.segmentNames rewritten.records below
      rewritten.fresh begun
  · rw [rewritten.segmentNames]
    intro name mem
    obtain ⟨file, inFiles, rfl⟩ := mem_map.mp mem
    rw [(lookup file inFiles).1]
    simp
  · rw [rewritten.segments]
    exact cut.whole
  · rw [rewritten.records, rewritten.earliestOffset]
    exact contiguous
  · rw [rewritten.records, rewritten.earliestOffset, sameWatermark]
    exact reaches
  · rw [rewritten.earliestOffset]
    exact positive
  · rw [rewritten.records]
    exact fun rec mem => stored.own rec (members rec mem)
  · rw [rewritten.snapshotRecords]
    exact stored.ownSnapshot
  · rw [rewritten.snapshot]
    exact stored.ownDisk
  · rw [rewritten.records, sameVersion]
    exact fun rec mem => stored.versions rec (members rec mem)
  · rw [sameWatermark, sameVersion]
    exact stored.unused
  · rw [rewritten.records]
    intro some_record
    have some_file : (rewrittenFiles opts
        (log.retainFrom retainFromOffset).records).map name ≠ [] := by
      intro noNames
      have noFiles := map_eq_nil_iff.mp noNames
      apply some_record
      rw [← cut.content, noFiles, flatMap_nil]
    exact (begun _ (getLast?_eq_some_getLast some_file)).2
  · have watermarks := makeManifest_watermarks made
    dsimp only [installed] at watermarks
    rw [← rewritten.earliestOffset, ← rewritten.highWatermark, ← rewritten.committedVersion]
      at watermarks
    refine ⟨manifest.segments, ?_, ?_⟩
    · rw [rewritten.onDisk, ← watermarks]
    · intro described
      by_cases noFiles : rewrittenFiles opts (log.retainFrom retainFromOffset).records = []
      · have noRecords : compacted.records = [] := by
          rw [rewritten.records, ← cut.content, noFiles, flatMap_nil]
        have unused : log.highWatermark = 0 := by
          rcases described with some_record | unused
          · exact absurd noRecords some_record
          · exact sameWatermark.symm.trans unused
        have neverAny : log.records = [] := by
          have before := stored.reaches
          have start := stored.positive
          apply eq_nil_of_length_eq_zero
          omega
        have noSegments : (log.retainFrom retainFromOffset).disk.segments = [] :=
          stored.segments_eq_nil neverAny
        rw [installed, noFiles] at made
        simp only [makeManifest, map_nil, isEmpty_nil, if_true, ChangeLogDisk.names,
          installSegments, noSegments, filter_nil, append_nil,
          insertionSort_nil, mapM_nil, pure, Except.pure, Except.ok.injEq] at made
        rw [rewritten.segmentNames, noFiles, ← made, map_nil, map_nil]
      · exact rewritten.segments_described cut sorted
          (fun rec mem => (offsets rec mem).1) noFiles made

/-- Logs that were created in an empty directory and have since seen successful appends and
compactions and have been opened again. -/
inductive Maintained (opts : ChangeLogOptions) : PartitionChangeLog → Prop
  | created {log : PartitionChangeLog} (read : openLog opts ⟨[], [], none⟩ = .ok log) :
      Maintained opts log
  | appended {log : PartitionChangeLog} (maintained : Maintained opts log)
      (ver : UInt64) (recs : List ChangeRecord) (out : AppendOutcome)
      (complete : (log.appendCommittedBatch opts ver recs out).2 = .ok ()) :
      Maintained opts (run (apply opts) log (log.appendCommittedBatch opts ver recs out).1)
  | compacted {log compacted : PartitionChangeLog} (maintained : Maintained opts log)
      (retainFromOffset : Nat) (done : compact opts log retainFromOffset = .ok compacted) :
      Maintained opts compacted
  | reopened {log reopened : PartitionChangeLog} (maintained : Maintained opts log)
      (read : openLog opts log.disk = .ok reopened) : Maintained opts reopened

theorem stored_emptyLog : Stored opts (emptyLog opts) := by
  refine ⟨clean_emptyLog.layout, ?_, ?_, ?_, ?_, ?_, ?_, ?_, ?_, ?_, ?_, ?_,
    ⟨[], rfl, fun _ => rfl⟩⟩
  all_goals simp [emptyLog]

theorem Maintained.stored (maintained : Maintained opts log) : Stored opts log := by
  induction maintained with
  | created read =>
    have recovered := (recover_of_openLog read).1
    rw [recover_empty] at recovered
    rw [← Except.ok.inj recovered]
    exact stored_emptyLog
  | appended _ ver recs out complete ih => exact (ih.append complete).1
  | compacted _ retainFromOffset done ih => exact ih.compact done
  | reopened _ read ih => exact (ih.recovered (recover_of_openLog read).1).2

theorem Maintained.openLog_eq (maintained : Maintained opts log) (disk : ChangeLogDisk) :
    openLog opts disk = recover opts disk := by
  have limits : 16 < opts.maxSegmentBytes ∧
      ¬ (opts.maxFetchRecords = 0 ∨ opts.maxFetchBytes = 0) := by
    induction maintained with
    | created read =>
      rw [openLog] at read
      split at read
      · simp at read
      · split at read
        · simp at read
        · rename_i large positive
          exact ⟨Nat.lt_of_not_le large, positive⟩
    | appended _ _ _ _ _ ih => exact ih
    | compacted _ _ _ ih => exact ih
    | reopened _ _ ih => exact ih
  rw [openLog, if_neg (Nat.not_le.mpr limits.1), if_neg limits.2]

theorem appendFrames_written (index : Nat) (recs : List ChangeRecord) :
    appendFrames (fun _ => .written) index recs = (frameEvents recs, true) := by
  induction recs generalizing index with
  | nil => simp [appendFrames, frameEvents]
  | cons rec rest ih => simp [appendFrames, ih, frameEvents]

theorem Stored.append_ok (stored : Stored opts log) (ver : UInt64) (recs : List ChangeRecord) :
    (log.appendCommittedBatch opts ver recs ⟨fun _ => .written, true, true⟩).2 = .ok () := by
  have made := stored.makeManifest_advanced ver recs
  simp only [advanced, batchEvents] at made
  simp only [appendCommittedBatch, appendFrames_written, if_true, made]

/-- The directory of the log can be opened, the new log looks the same to readers, and an
append to it goes on with the next offset. -/
def ReopensFaithfully (opts : ChangeLogOptions) (log : PartitionChangeLog) : Prop :=
  ∃ reopened, openLog opts log.disk = .ok reopened ∧
    (∀ offset limitRecords limitBytes,
      reopened.readAfter opts offset limitRecords limitBytes =
        log.readAfter opts offset limitRecords limitBytes) ∧
    reopened.highWatermark = log.highWatermark ∧
    reopened.earliestOffset = log.earliestOffset ∧
    reopened.committedVersion = log.committedVersion ∧
    ∀ ver recs,
      let append := reopened.appendCommittedBatch opts ver recs ⟨fun _ => .written, true, true⟩
      append.2 = .ok () ∧ (run (apply opts) reopened append.1).records =
        log.records ++ stamp opts (log.highWatermark + 1) ver recs

/-- Closing and opening is faithful exactly when the log was never written to or one of its
records still has the committed version. -/
theorem reopensFaithfully_iff (opts : ChangeLogOptions) (log : PartitionChangeLog)
    (maintained : Maintained opts log) :
    ReopensFaithfully opts log ↔ Reopenable log := by
  have stored := maintained.stored
  rw [← stored.recover_iff, ReopensFaithfully, maintained.openLog_eq]
  constructor
  · intro faithful
    obtain ⟨reopened, read, _⟩ := faithful
    exact ⟨reopened, read⟩
  · intro readable
    obtain ⟨reopened, read⟩ := readable
    obtain ⟨view, again⟩ := stored.recovered read
    refine ⟨reopened, read, ?_, view.highWatermark, view.earliestOffset, view.committedVersion, ?_⟩
    · intro offset limitRecords limitBytes
      rw [readAfter, readAfter, view.records]
    · intro ver recs
      have complete := again.append_ok ver recs
      refine ⟨complete, ?_⟩
      rw [(again.append complete).2, view.records, view.highWatermark]

/-- Two batches with rising versions, the first of which is compacted away. -/
theorem reopensFaithfully_after_compaction :
    let opts : ChangeLogOptions := ⟨0, 0, 100, 10, 1000, fun _ => 20⟩
    let record : ChangeRecord :=
      ⟨0, 0, 0, 0, 7, 0, 0, 1, 0, 0, 0, 0, .update, 5, 0, []⟩
    let append := fun (log : PartitionChangeLog) (ver : UInt64) =>
      run (apply opts) log
        (log.appendCommittedBatch opts ver [record] ⟨fun _ => .written, true, true⟩).1
    let log := append (append (emptyLog opts) 5) 10
    ∃ compacted, compact opts log 2 = .ok compacted ∧ ReopensFaithfully opts compacted := by
  intro opts record append log
  have maintained : Maintained opts log := by
    refine .appended (.appended (.created ?_) 5 [record] _ ?_) 10 [record] _ ?_
    · decide
    · decide
    · decide
  have attained : ∀ compacted, compact opts log 2 = .ok compacted → Reopenable compacted := by
    intro compacted done
    have found : ((compact opts log 2).toOption.map fun compacted => compacted.records.any
        fun record => record.commitVersion = compacted.committedVersion) = some true := by
      decide
    rw [done] at found
    simpa [Reopenable, Except.toOption] using Or.inr found
  cases done : compact opts log 2 with
  | error status =>
    have succeeds : (compact opts log 2).isOk = true := by
      decide
    rw [done] at succeeds
    simp [Except.isOk, Except.toBool] at succeeds
  | ok compacted =>
    exact ⟨compacted, rfl, (reopensFaithfully_iff opts compacted
      (maintained.compacted 2 done)).mpr (attained compacted done)⟩

/-- Two batches with falling versions, the first of which is compacted away; and one batch
that is compacted away altogether. -/
theorem reopen_fails_after_compaction :
    let opts : ChangeLogOptions := ⟨0, 0, 100, 10, 1000, fun _ => 20⟩
    let record : ChangeRecord :=
      ⟨0, 0, 0, 0, 7, 0, 0, 1, 0, 0, 0, 0, .update, 5, 0, []⟩
    let append := fun (log : PartitionChangeLog) (ver : UInt64) =>
      run (apply opts) log
        (log.appendCommittedBatch opts ver [record] ⟨fun _ => .written, true, true⟩).1
    let reopens := fun (log : PartitionChangeLog) (retainFromOffset : Nat) =>
      (compact opts log retainFromOffset).toOption.map fun compacted =>
        (compacted.earliestOffset, (openLog opts compacted.disk).isOk)
    reopens (append (append (emptyLog opts) 10) 5) 2 = some (2, false) ∧
      reopens (append (emptyLog opts) 10) 2 = some (2, false) := by
  decide

end PartitionChangeLog

end CedarGraph
