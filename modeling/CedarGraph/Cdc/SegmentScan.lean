import CedarGraph.Cdc.WholeAppends

/-!
# The scan of the segments

`Recover` reads the listed segments frame by frame. For whole frames with contiguous offsets the
scan, the ranges of the manifest and the largest commit version are given here in closed form.
-/

namespace CedarGraph

open List ChangeRecord

namespace PartitionChangeLog

variable {opts : ChangeLogOptions}

/-- The line of the manifest for a segment with these records. -/
def rangeOf (opts : ChangeLogOptions) (name : Nat) (recs : List ChangeRecord) : SegmentRange :=
  ⟨name, (recs.head?.map offset).getD 0,
    (recs.getLast?.map offset).getD 0, (recs.map opts.frameSize).sum⟩

variable {recs : List ChangeRecord}

theorem foldlM_extendRange_frames
    (positive : ∀ rec ∈ recs, 0 < rec.offset) (range : SegmentRange) :
    (recs.map SegmentPiece.frame).foldlM (extendRange opts) range =
      .ok { range with
        firstOffset := if range.firstOffset = 0 then
          (recs.head?.map offset).getD 0 else range.firstOffset
        lastOffset := (recs.getLast?.map offset).getD range.lastOffset
        bytes := range.bytes + (recs.map opts.frameSize).sum } := by
  induction recs generalizing range with
  | nil =>
    by_cases unset : range.firstOffset = 0
    · simp [pure, Except.pure, unset]
      rw [← unset]
    · simp [pure, Except.pure, unset]
  | cons rec rest ih =>
    rw [forall_mem_cons] at positive
    rw [map_cons, foldlM_cons, extendRange]
    simp only [bind, Except.bind]
    rw [ih positive.2]
    by_cases unset : range.firstOffset = 0
    · have set : ¬ rec.offset = 0 := Nat.pos_iff_ne_zero.mp positive.1
      simp [unset, set, getLast?_cons, Nat.add_assoc]
    · simp [unset, getLast?_cons, Nat.add_assoc]

def Own (opts : ChangeLogOptions) (rec : ChangeRecord) : Prop :=
  rec.partitionId = opts.partitionId ∧ rec.partitionEpoch = opts.partitionEpoch

def maxVersion (start : UInt64) (recs : List ChangeRecord) : UInt64 :=
  recs.foldl (fun ver rec => max ver rec.commitVersion) start

/-- The scan after whole frames; `isFirst` says that they begin their segment. -/
def LogScan.addFrames (scan : LogScan) (isFirst : Bool) (recs : List ChangeRecord) : LogScan :=
  { records := scan.records ++ recs
    highWatermark := (recs.getLast?.map offset).getD scan.highWatermark
    committedVersion := maxVersion scan.committedVersion recs
    expectedOffset :=
      (recs.getLast?.map fun rec => rec.offset + 1).getD scan.expectedOffset
    lastSegmentFirstOffset :=
      if isFirst then (recs.head?.map offset).getD scan.lastSegmentFirstOffset
      else scan.lastSegmentFirstOffset
    truncated := scan.truncated }

def SegmentScan.addFrames (opts : ChangeLogOptions) (segment : SegmentScan)
    (recs : List ChangeRecord) : SegmentScan :=
  { firstOffset :=
      if segment.validBytes = 0 then
        (recs.head?.map offset).getD segment.firstOffset
      else segment.firstOffset
    lastOffset := (recs.getLast?.map offset).getD segment.lastOffset
    validBytes := segment.validBytes + (recs.map opts.frameSize).sum }

theorem scanSegment_frames
    {isLast : Bool} {manifest : Option ChangeLogManifest} {recs : List ChangeRecord}
    (own : ∀ rec ∈ recs, Own opts rec) {start : Nat}
    (contiguous : recs.map offset = List.range' start recs.length)
    (tail : List SegmentPiece) {scan : LogScan}
    (expected : scan.expectedOffset = 0 ∨ scan.expectedOffset = start) (segment : SegmentScan) :
    scanSegment opts isLast manifest (recs.map .frame ++ tail) scan segment =
      scanSegment opts isLast manifest tail (scan.addFrames (segment.validBytes = 0) recs)
        (segment.addFrames opts recs) := by
  induction recs generalizing scan segment start with
  | nil => simp [LogScan.addFrames, SegmentScan.addFrames, maxVersion]
  | cons rec rest ih =>
    rw [length_cons, range'_succ, map_cons, cons.injEq] at contiguous
    obtain ⟨offset, restContiguous⟩ := contiguous
    obtain ⟨metadata, restOwn⟩ := forall_mem_cons.mp own
    have sameLog : ¬ (rec.partitionId ≠ opts.partitionId ∨
        rec.partitionEpoch ≠ opts.partitionEpoch) := by
      simp [metadata.1, metadata.2]
    have noGap : ¬ (scan.expectedOffset ≠ 0 ∧ rec.offset ≠ scan.expectedOffset) := by
      omega
    have positive : ¬ segment.validBytes + opts.frameSize rec = 0 := by
      rw [ChangeLogOptions.frameSize]
      omega
    rw [map_cons, cons_append, scanSegment, if_neg sameLog, if_neg noGap]
    dsimp only
    rw [ih restOwn restContiguous (Or.inr (by simp [offset]))]
    congr 1
    · simp only [LogScan.addFrames, positive, decide_false, Bool.false_eq_true, if_false,
        getLast?_cons, append_assoc, singleton_append, maxVersion,
        foldl_cons, head?_cons]
      cases rest.getLast? <;> simp
    · simp only [SegmentScan.addFrames, positive, if_false, getLast?_cons, head?_cons,
        map_cons, sum_cons, Nat.add_assoc]
      cases rest.getLast? <;> simp

def LogScan.addSegments (content : Nat → List ChangeRecord) (scan : LogScan)
    (names : List Nat) : LogScan :=
  names.foldl (fun scan name => scan.addFrames true (content name)) scan

section Segments

variable {content : Nat → List ChangeRecord} {names : List Nat} {scan : LogScan}

theorem addSegments_fields (content : Nat → List ChangeRecord) (scan : LogScan)
    (names : List Nat) :
    let after := scan.addSegments content names
    let recs := names.flatMap content
    after.records = scan.records ++ recs ∧
      after.highWatermark = (recs.getLast?.map offset).getD scan.highWatermark ∧
      after.committedVersion = maxVersion scan.committedVersion recs ∧
      after.expectedOffset =
        (recs.getLast?.map fun rec => rec.offset + 1).getD scan.expectedOffset ∧
      after.truncated = scan.truncated := by
  induction names generalizing scan with
  | nil => simp [LogScan.addSegments, maxVersion]
  | cons name rest ih =>
    obtain ⟨recs, watermark, ver, expected, truncated⟩ :=
      ih (scan.addFrames true (content name))
    simp only [LogScan.addSegments, foldl_cons, flatMap_cons, getLast?_append]
    simp only [LogScan.addSegments] at recs watermark ver expected truncated
    rw [recs, watermark, ver, expected, truncated]
    refine ⟨by simp [LogScan.addFrames], ?_, by simp [LogScan.addFrames, maxVersion], ?_, rfl⟩
    · cases (rest.flatMap content).getLast? <;> simp [LogScan.addFrames]
    · cases (rest.flatMap content).getLast? <;> simp [LogScan.addFrames]

variable {start : Nat}

theorem getLast?_offset {recs : List ChangeRecord}
    (contiguous : recs.map offset = List.range' start recs.length) (filled : recs ≠ []) :
    ∃ last, recs.getLast? = some last ∧ last.offset + 1 = start + recs.length := by
  have some_record := length_pos_iff.mpr filled
  have lastOffset := congrArg getLast? contiguous
  rw [getLast?_map, getLast?_range', if_neg (Nat.pos_iff_ne_zero.mp some_record)] at lastOffset
  obtain ⟨last, isLast, offset⟩ := Option.map_eq_some_iff.mp lastOffset
  exact ⟨last, isLast, by omega⟩

theorem contiguous_append {first second : List ChangeRecord}
    (contiguous : (first ++ second).map offset = List.range' start (first ++ second).length) :
    first.map offset = List.range' start first.length ∧
      second.map offset = List.range' (start + first.length) second.length := by
  rw [map_append, length_append, ← range'_append_1] at contiguous
  exact append_inj contiguous (by simp)

theorem scanListed_front {manifest : ChangeLogManifest} {disk : ChangeLogDisk}
    (files : ∀ name ∈ names, disk.segment name = some ⟨name, (content name).map .frame⟩)
    (filled : ∀ name ∈ names, content name ≠ [])
    (own : ∀ name ∈ names, ∀ rec ∈ content name, Own opts rec) {start : Nat}
    (contiguous : (names.flatMap content).map offset =
      List.range' start (names.flatMap content).length)
    (expected : scan.expectedOffset = 0 ∨ scan.expectedOffset = start) (rest : List SegmentRange) :
    scanListed opts manifest disk
        (names.map (fun name => rangeOf opts name (content name)) ++ rest) scan =
      scanListed opts manifest disk rest (scan.addSegments content names) := by
  induction names generalizing scan start with
  | nil => simp [LogScan.addSegments]
  | cons name others ih =>
    obtain ⟨file, otherFiles⟩ := forall_mem_cons.mp files
    obtain ⟨some_record, othersFilled⟩ := forall_mem_cons.mp filled
    obtain ⟨ownFirst, ownOthers⟩ := forall_mem_cons.mp own
    rw [flatMap_cons] at contiguous
    obtain ⟨first, later⟩ := contiguous_append contiguous
    obtain ⟨last, isLast, next⟩ := getLast?_offset first some_record
    have scanned := @scanSegment_frames opts
      (others.map (fun name => rangeOf opts name (content name)) ++ rest).isEmpty
      (some manifest) (content name) ownFirst start first [] scan expected ⟨0, 0, 0⟩
    rw [append_nil, scanSegment] at scanned
    have matching : matchesManifest
        (others.map (fun name => rangeOf opts name (content name)) ++ rest).isEmpty manifest
        (rangeOf opts name (content name))
        (scan.addFrames (decide (0 = 0)) (content name))
        (SegmentScan.addFrames opts ⟨0, 0, 0⟩ (content name)) = true := by
      simp [matchesManifest, rangeOf, SegmentScan.addFrames]
    rw [map_cons, cons_append, scanListed]
    have found : disk.segment (rangeOf opts name (content name)).name =
        some ⟨name, (content name).map .frame⟩ := file
    rw [found]
    dsimp only at scanned ⊢
    rw [scanned]
    dsimp only
    rw [if_pos matching]
    refine ih otherFiles othersFilled ownOthers later (Or.inr ?_)
    simp [LogScan.addFrames, isLast, next]

theorem scanListed_last
    {manifest : ChangeLogManifest} {disk : ChangeLogDisk} {name : Nat}
    {recs : List ChangeRecord} {tail : List SegmentPiece}
    (file : disk.segment name = some ⟨name, recs.map .frame ++ tail⟩)
    (own : ∀ rec ∈ recs, Own opts rec) {start : Nat}
    (contiguous : recs.map offset = List.range' start recs.length)
    (expected : scan.expectedOffset = 0 ∨ scan.expectedOffset = start) :
    scanListed opts manifest disk [rangeOf opts name recs] scan =
      match scanSegment opts true (some manifest) tail (scan.addFrames true recs)
          (SegmentScan.addFrames opts ⟨0, 0, 0⟩ recs) with
      | .error status => .error status
      | .ok (scanned, segment) =>
        if matchesManifest true manifest (rangeOf opts name recs) scanned segment then
          .ok scanned
        else .error (corruption "manifest segment range mismatch") := by
  have scanned : scanSegment opts true (some manifest) (recs.map .frame ++ tail) scan ⟨0, 0, 0⟩ =
      scanSegment opts true (some manifest) tail (scan.addFrames true recs)
        (SegmentScan.addFrames opts ⟨0, 0, 0⟩ recs) :=
    scanSegment_frames own contiguous tail expected ⟨0, 0, 0⟩
  have found : disk.segment (rangeOf opts name recs).name =
      some ⟨name, recs.map .frame ++ tail⟩ := file
  rw [scanListed, found]
  simp only [isEmpty_nil, scanned]
  cases scanSegment opts true (some manifest) tail (scan.addFrames true recs)
      (SegmentScan.addFrames opts ⟨0, 0, 0⟩ recs) with
  | error status => rfl
  | ok res => rfl

end Segments

theorem mapM_segmentRange_frames
    {content : Nat → List ChangeRecord} {names : List Nat} {disk : ChangeLogDisk}
    (files : ∀ name ∈ names, disk.segment name = some ⟨name, (content name).map .frame⟩)
    (positive : ∀ name ∈ names, ∀ rec ∈ content name, 0 < rec.offset) :
    names.mapM (segmentRange opts disk) =
      .ok (names.map fun name => rangeOf opts name (content name)) := by
  induction names with
  | nil => simp [pure, Except.pure]
  | cons name rest ih =>
    obtain ⟨file, otherFiles⟩ := forall_mem_cons.mp files
    obtain ⟨first, others⟩ := forall_mem_cons.mp positive
    have read : segmentRange opts disk name = .ok (rangeOf opts name (content name)) := by
      rw [segmentRange, file]
      simp only [readSegmentRange, foldlM_extendRange_frames first]
      simp [rangeOf]
    rw [mapM_cons, read, ih otherFiles others]
    simp [bind, Except.bind, pure, Except.pure]

theorem makeManifest_frames {log : PartitionChangeLog} {content : Nat → List ChangeRecord}
    (sorted : log.segmentNames.Pairwise (· < ·)) (someName : log.segmentNames ≠ [])
    (files : ∀ name ∈ log.segmentNames,
      log.disk.segment name = some ⟨name, (content name).map .frame⟩)
    (positive : ∀ name ∈ log.segmentNames, ∀ rec ∈ content name, 0 < rec.offset) :
    log.makeManifest opts = .ok ⟨opts.partitionId, opts.partitionEpoch,
      log.earliestOffset, log.highWatermark, log.committedVersion,
      log.segmentNames.map fun name => rangeOf opts name (content name)⟩ := by
  have listed : ¬ log.segmentNames.isEmpty = true := by
    simpa using someName
  have ordered : log.segmentNames.Pairwise (· ≤ ·) := sorted.imp Nat.le_of_lt
  rw [makeManifest, if_neg listed, ordered.insertionSort_eq,
    mapM_segmentRange_frames files positive]

theorem max_version (first second : UInt64) :
    first ≤ max first second ∧ second ≤ max first second ∧
      (max first second = first ∨ max first second = second) := by
  by_cases ordered : first ≤ second
  · have larger : max first second = second := if_pos ordered
    rw [larger]
    exact ⟨ordered, UInt64.le_refl second, Or.inr rfl⟩
  · have larger : max first second = first := if_neg ordered
    rw [larger]
    exact ⟨UInt64.le_refl first, UInt64.le_of_lt (UInt64.not_le.mp ordered), Or.inl rfl⟩

theorem le_maxVersion (start : UInt64) (recs : List ChangeRecord) :
    start ≤ maxVersion start recs ∧ ∀ rec ∈ recs, rec.commitVersion ≤ maxVersion start recs := by
  induction recs generalizing start with
  | nil => simp [maxVersion]
  | cons rec rest ih =>
    obtain ⟨left, right, _⟩ := max_version start rec.commitVersion
    obtain ⟨first, others⟩ := ih (max start rec.commitVersion)
    rw [maxVersion, foldl_cons, ← maxVersion, forall_mem_cons]
    exact ⟨UInt64.le_trans left first, UInt64.le_trans right first, others⟩

theorem maxVersion_attained (start : UInt64) (recs : List ChangeRecord) :
    maxVersion start recs = start ∨ ∃ rec ∈ recs, rec.commitVersion = maxVersion start recs := by
  induction recs generalizing start with
  | nil => simp [maxVersion]
  | cons rec rest ih =>
    rw [maxVersion, foldl_cons, ← maxVersion]
    rcases ih (max start rec.commitVersion) with same | ⟨other, mem, same⟩
    · rw [same]
      rcases (max_version start rec.commitVersion).2.2 with first | second
      · exact Or.inl first
      · exact Or.inr ⟨rec, mem_cons_self, second.symm⟩
    · exact Or.inr ⟨other, mem_cons_of_mem rec mem, same⟩

theorem maxVersion_eq_iff {bound : UInt64} (filled : recs ≠ [])
    (versions : ∀ rec ∈ recs, rec.commitVersion ≤ bound) :
    maxVersion 0 recs = bound ↔ ∃ rec ∈ recs, rec.commitVersion = bound := by
  have upper := (le_maxVersion 0 recs).2
  constructor
  · intro same
    rcases maxVersion_attained 0 recs with zero | ⟨rec, mem, ver⟩
    · -- all versions are zero
      obtain ⟨rec, mem⟩ := exists_mem_of_ne_nil recs filled
      refine ⟨rec, mem, ?_⟩
      have below := upper rec mem
      rw [zero] at below
      rw [← same, zero]
      exact UInt64.le_antisymm below (UInt64.zero_le)
    · exact ⟨rec, mem, ver.trans same⟩
  · intro attained
    obtain ⟨rec, mem, ver⟩ := attained
    rcases maxVersion_attained 0 recs with zero | ⟨other, otherMember, otherVersion⟩
    · have below := upper rec mem
      rw [ver] at below
      rw [zero] at below ⊢
      exact UInt64.le_antisymm UInt64.zero_le below
    · refine UInt64.le_antisymm ?_ ?_
      · rw [← otherVersion]
        exact versions other otherMember
      · rw [← ver]
        exact upper rec mem

end PartitionChangeLog

end CedarGraph
