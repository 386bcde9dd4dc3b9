import CedarGraph.Cdc.Maintenance

/-!
# A crash in the middle of an append

Between the first frame of a batch and the new manifest the segment files hold frames that the
manifest does not know. `Recover` ignores segments that are not listed; a listed one has to be
as long as the manifest says, up to one torn frame. In a log without segments every file is
read, and a torn frame is an error.
-/

namespace CedarGraph

open List Option SegmentPiece ChangeLogDisk FrameOutcome Runs

def FrameOutcome.isWhole : FrameOutcome → Bool
  | .written => true
  | .unsynced => true
  | .unlisted => true
  | .refused => false
  | .created => false
  | .torn => false

def FrameOutcome.pieces (rec : ChangeRecord) : FrameOutcome → List SegmentPiece
  | .torn => [.torn]
  | out => if out.isWhole then [.frame rec] else []

namespace PartitionChangeLog

variable {opts : ChangeLogOptions} {log : PartitionChangeLog}

/-- A crash after a number of effects of an append; when the next effect is a frame, it may
have been begun. -/
structure AppendCrash where
  count : Nat
  next : FrameOutcome

def begunEvent (next : FrameOutcome) : Option ChangeLogEvent → List ChangeLogEvent
  | some (.appendFrame rec _) => [.appendFrame rec next]
  | _ => []

section Definitions

variable (opts : ChangeLogOptions) (log : PartitionChangeLog) (ver : UInt64)
  (recs : List ChangeRecord)

def appendEvents : List ChangeLogEvent :=
  (log.appendCommittedBatch opts ver recs ⟨fun _ => .written, true, true⟩).1

def crashedDisk (crash : AppendCrash) : ChangeLogDisk :=
  let events := appendEvents opts log ver recs
  (run (apply opts) log
    (events.take crash.count ++ begunEvent crash.next events[crash.count]?)).disk

/-- The directory can be opened, and readers find the records of the log followed by all or
none of the records of the batch. -/
def Survives (disk : ChangeLogDisk) : Prop :=
  ∃ reopened, openLog opts disk = .ok reopened ∧
    ∃ batch, (batch = [] ∨ batch = stamp opts (log.highWatermark + 1) ver recs) ∧
      ∀ offset limitRecords limitBytes,
        reopened.readAfter opts offset limitRecords limitBytes =
          { log with records := log.records ++ batch }.readAfter opts offset limitRecords limitBytes

def wholeFrames (crash : AppendCrash) : Nat :=
  if crash.count < recs.length then
    crash.count + if crash.next.isWhole then 1 else 0
  else recs.length

/-- The first record of the batch opens a new segment. -/
def Rolls : Prop :=
  ∃ rec ∈ (stamp opts (log.highWatermark + 1) ver recs).head?,
    opts.maxSegmentBytes < log.activeSegmentSize + opts.frameSize rec

/-- The manifest was replaced; or the log had no segment and no frame is torn; or no frame
is complete or the first one went to a new segment. -/
def Harmless (crash : AppendCrash) : Prop :=
  (appendEvents opts log ver recs).length ≤ crash.count ∨
    if log.records = [] then ¬ (crash.count < recs.length ∧ crash.next = .torn)
    else wholeFrames recs crash = 0 ∨ Rolls opts log ver recs

abbrev target (rec : ChangeRecord) : Nat :=
  (log.selectSegment opts rec).activeSegmentFirstOffset

end Definitions

/-! ## The listed segments during an append -/

theorem segment_create (disk : ChangeLogDisk) (name : Nat) {other : Nat} {file : SegmentFile}
    (found : disk.segment other = some file) : (disk.create name).segment other = some file := by
  rw [create]
  split
  · exact found
  · rw [ChangeLogDisk.segment] at found
    rw [ChangeLogDisk.segment, find?_append, found, some_or]

variable {rec : ChangeRecord} {disk : ChangeLogDisk} {crash : AppendCrash}
    {ver : UInt64} {recs : List ChangeRecord}

theorem segment_appendFrame {out : FrameOutcome} {name : Nat} {pieces : List SegmentPiece}
    (found : log.disk.segment name = some ⟨name, pieces⟩) :
    (log.appendFrame opts rec out).disk.segment name =
      some ⟨name, pieces ++ if log.target opts rec = name then out.pieces rec else []⟩ := by
  obtain ⟨_, _, _, sameDisk, _⟩ := @selectSegment_fields opts log rec
  have written : ∀ piece, (log.disk.write (log.target opts rec) piece).segment name =
      some ⟨name, pieces ++ if log.target opts rec = name then [piece] else []⟩ := by
    intro piece
    rw [segment_write]
    by_cases active : name = log.target opts rec
    · simp [← active, found]
    · have other : ¬ log.target opts rec = name := fun same => active same.symm
      simp [active, other, found]
  cases out with
  | torn => simpa [appendFrame, sameDisk, FrameOutcome.pieces, FrameOutcome.isWhole] using written _
  | refused => simpa [appendFrame, sameDisk, FrameOutcome.pieces, FrameOutcome.isWhole] using found
  | created =>
    have kept := segment_create log.disk (log.target opts rec) found
    simpa [appendFrame, sameDisk, FrameOutcome.pieces, FrameOutcome.isWhole] using kept
  | _ =>
    simpa [appendFrame, sameDisk, FrameOutcome.pieces, FrameOutcome.isWhole] using written _

/-- The listed segments of the log, with more pieces behind the last frame, and a segment
for the next frame that is the last listed one or not listed. -/
structure Drifted (log : PartitionChangeLog) (tail : List SegmentPiece)
    (cur : PartitionChangeLog) : Prop where
  manifest : cur.disk.manifest = log.disk.manifest
  files : ∀ name ∈ log.segmentNames,
    cur.disk.segment name = some ⟨name, (log.disk.frames name).map .frame ++
      if log.segmentNames.getLast? = some name then tail else []⟩
  active : cur.activeSegmentFirstOffset ∉ log.segmentNames ∨
    log.segmentNames.getLast? = some cur.activeSegmentFirstOffset

theorem active_selectSegment (rec : ChangeRecord) :
    log.target opts rec =
      if 0 < log.activeSegmentSize ∧
          opts.maxSegmentBytes < log.activeSegmentSize + opts.frameSize rec then
        rec.offset else log.activeSegmentFirstOffset := by
  rw [target, selectSegment]
  split
  · split
    · rfl
    · rfl
  · split
    · rfl
    · rfl

theorem manifest_appendFrame (rec : ChangeRecord) (out : FrameOutcome) :
    (log.appendFrame opts rec out).disk.manifest = log.disk.manifest ∧
      (log.appendFrame opts rec out).activeSegmentFirstOffset = log.target opts rec ∧
      (log.appendFrame opts rec out).disk.snapshot = log.disk.snapshot := by
  obtain ⟨_, _, _, sameDisk, _⟩ := @selectSegment_fields opts log rec
  cases out with
  | created =>
    refine ⟨?_, rfl, ?_⟩
    · simp only [appendFrame, create, sameDisk]
      split
      · rfl
      · rfl
    · simp only [appendFrame, create, sameDisk]
      split
      · rfl
      · rfl
  | refused => simp [appendFrame, sameDisk]
  | _ => simp [appendFrame, write, sameDisk]

/-- A frame goes behind the last listed segment or to a segment that is not listed. -/
theorem Drifted.appendFrame
    {tail : List SegmentPiece} {cur : PartitionChangeLog} (drifted : Drifted log tail cur)
    {rec : ChangeRecord} (new : rec.offset ∉ log.segmentNames) (out : FrameOutcome) :
    Drifted log (tail ++ if cur.target opts rec ∈ log.segmentNames then out.pieces rec else [])
      (cur.appendFrame opts rec out) := by
  obtain ⟨manifest, active, _⟩ := @manifest_appendFrame opts cur rec out
  have next : cur.target opts rec ∉ log.segmentNames ∨
      log.segmentNames.getLast? = some (cur.target opts rec) := by
    rw [active_selectSegment]
    split
    · exact Or.inl new
    · exact drifted.active
  refine ⟨manifest.trans drifted.manifest, ?_, by rw [active]; exact next⟩
  intro name mem
  rw [segment_appendFrame (drifted.files name mem)]
  rcases next with unlisted | isLast
  · have other : ¬ cur.target opts rec = name := by
      intro same
      rw [same] at unlisted
      exact unlisted mem
    simp [unlisted, other]
  · have listed := mem_of_getLast? isLast
    rw [if_pos listed, isLast, some.injEq]
    by_cases same : cur.target opts rec = name
    · simp [same]
    · simp [same]

theorem Stored.names_le (stored : Stored opts log) {name : Nat} (mem : name ∈ log.segmentNames) :
    name < log.highWatermark + 1 := by
  rcases stored.layout.below name mem with before | ⟨isNext, empty⟩
  · exact before
  · have missing := (stored.layout.fresh empty).2
    rw [← isNext] at missing
    exact absurd missing (stored.present name mem)

theorem Stored.drifted (stored : Stored opts log) : Drifted log [] log := by
  refine ⟨rfl, stored.tailed.files, ?_⟩
  by_cases empty : log.activeSegmentSize = 0
  · left
    intro mem
    have below := stored.names_le mem
    have active := (stored.layout.fresh empty).1
    omega
  · exact Or.inr (stored.layout.begun (Nat.pos_of_ne_zero empty)).1

def frameEvent (frame : ChangeRecord × FrameOutcome) : ChangeLogEvent :=
  .appendFrame frame.1 frame.2

theorem Drifted.run {tail : List SegmentPiece} {cur : PartitionChangeLog}
    (drifted : Drifted log tail cur) {frames : List (ChangeRecord × FrameOutcome)}
    (new : ∀ frame ∈ frames, frame.1.offset ∉ log.segmentNames) :
    (∃ more, Drifted log (tail ++ more) (run (apply opts) cur (frames.map frameEvent))) ∧
      (cur.activeSegmentFirstOffset ∉ log.segmentNames →
        Drifted log tail (run (apply opts) cur (frames.map frameEvent))) := by
  induction frames generalizing tail cur with
  | nil => exact ⟨⟨[], by simpa [Runs.run] using drifted⟩, fun _ => drifted⟩
  | cons frame rest ih =>
    obtain ⟨first, others⟩ := forall_mem_cons.mp new
    have step := @Drifted.appendFrame opts log tail cur drifted frame.1 first frame.2
    obtain ⟨⟨more, later⟩, apart⟩ := ih step others
    refine ⟨⟨_, by rw [append_assoc] at later; exact later⟩, ?_⟩
    intro unlisted
    have stays : cur.target opts frame.1 ∉ log.segmentNames := by
      rw [active_selectSegment]
      split
      · exact first
      · exact unlisted
    rw [if_neg stays, append_nil] at apart
    apply apart
    rw [(manifest_appendFrame frame.1 frame.2).2.1]
    exact stays

theorem Stored.drifted_frames (stored : Stored opts log) (filled : log.records ≠ [])
    {out : FrameOutcome} {rest : List (ChangeRecord × FrameOutcome)}
    (new : ∀ frame ∈ (rec, out) :: rest, log.highWatermark < frame.1.offset) :
    let cur := run (apply opts) log (((rec, out) :: rest).map frameEvent)
    if opts.maxSegmentBytes < log.activeSegmentSize + opts.frameSize rec then
      Drifted log [] cur
    else ∃ more, Drifted log (out.pieces rec ++ more) cur ∧ (rest = [] → more = []) := by
  have unlisted : ∀ frame ∈ (rec, out) :: rest, frame.1.offset ∉ log.segmentNames := by
    intro frame mem inNames
    have below := stored.names_le inNames
    have above := new frame mem
    omega
  obtain ⟨first, others⟩ := forall_mem_cons.mp unlisted
  have size := stored.growing filled
  have step := @Drifted.appendFrame opts log [] log stored.drifted rec first out
  rw [nil_append] at step
  have active := @active_selectSegment opts log rec
  intro cur
  split
  · rename_i rolls
    rw [if_pos ⟨size, rolls⟩] at active
    have apart : log.target opts rec ∉ log.segmentNames := by
      rw [active]
      exact first
    rw [if_neg apart] at step
    apply (step.run others).2
    rw [(manifest_appendFrame rec out).2.1]
    exact apart
  · rename_i stays
    rw [if_neg (fun both => stays both.2)] at active
    have listed : log.target opts rec ∈ log.segmentNames := by
      rw [active]
      exact mem_of_getLast? (stored.layout.begun size).1
    rw [if_pos listed] at step
    by_cases single : rest = []
    · subst single
      exact ⟨[], by rw [append_nil]; exact step, fun _ => rfl⟩
    · obtain ⟨more, later⟩ := (step.run others).1
      exact ⟨more, later, fun empty => absurd empty single⟩

/-! ## Frames that the manifest does not know -/

theorem scanSegment_grows
    {isLast : Bool} {manifest : Option ChangeLogManifest} {pieces : List SegmentPiece}
    {scan later : LogScan} {segment laterSegment : SegmentScan} (started : scan.expectedOffset ≠ 0)
    (read : scanSegment opts isLast manifest pieces scan segment = .ok (later, laterSegment)) :
    later.expectedOffset = scan.expectedOffset + (pieces.filterMap frame?).length ∧
      laterSegment.validBytes =
        segment.validBytes + ((pieces.filterMap frame?).map opts.frameSize).sum := by
  induction pieces generalizing scan segment with
  | nil =>
    simp only [scanSegment, Except.ok.injEq, Prod.mk.injEq] at read
    simp [read.1, read.2]
  | cons piece rest ih =>
    cases piece with
    | torn =>
      rw [scanSegment] at read
      split at read
      · simp at read
      · rename_i noMore
        have empty : rest = [] := not_not.mp noMore
        split at read
        · simp at read
        · simp only [Except.ok.injEq, Prod.mk.injEq] at read
          simp [← read.1, ← read.2, empty, filterMap_cons, frame?]
    | frame rec =>
      rw [scanSegment] at read
      split at read
      · simp at read
      split at read
      · simp at read
      rename_i noGap
      have offset : rec.offset = scan.expectedOffset := by
        by_contra ne
        exact noGap ⟨started, ne⟩
      obtain ⟨expected, bytes⟩ := ih (by simp) read
      dsimp only at expected bytes
      simp only [frame?, filterMap_cons, length_cons, map_cons, sum_cons]
      omega

theorem Stored.recover_extended
    (stored : Stored opts log) (filled : log.records ≠ []) {rest : List SegmentPiece}
    (tailed : Tailed opts log (.frame rec :: rest) disk) (reopened : PartitionChangeLog) :
    recover opts disk ≠ .ok reopened := by
  obtain ⟨segments, onDisk, exact_segments⟩ := stored.described
  obtain rfl := exact_segments (Or.inl filled)
  obtain ⟨watermark, expected⟩ := stored.wholeScan_fields.2.2.1 filled
  intro read
  rw [recover, tailed.manifest, onDisk] at read
  dsimp only at read
  obtain ⟨last, scanned⟩ := stored.scanListed_split tailed _ filled
  rw [if_neg (by simp), scanned] at read
  split at read
  · simp at read
  rename_i extended
  split at extended
  · simp at extended
  rename_i later segment accepted
  obtain ⟨beyond, longer⟩ := scanSegment_grows (by omega) accepted
  simp only [frame?, filterMap_cons, length_cons, map_cons, sum_cons,
    ChangeLogOptions.frameSize, SegmentScan.addFrames] at beyond longer
  have known : ¬ log.highWatermark = later.expectedOffset := by omega
  have bytes : ¬ segment.validBytes = ((log.disk.frames last).map opts.frameSize).sum := by
    omega
  simp [matchesManifest, rangeOf, known, bytes] at extended

/-! ## Logs without segments -/

theorem foldlM_extendRange_ok_iff (pieces : List SegmentPiece) (range : SegmentRange) :
    (∃ read, pieces.foldlM (extendRange opts) range = .ok read) ↔ .torn ∉ pieces := by
  induction pieces generalizing range with
  | nil => simp [pure, Except.pure]
  | cons piece rest ih =>
    rw [foldlM_cons]
    cases piece with
    | torn => simp [extendRange, bind, Except.bind]
    | frame rec =>
      simp only [extendRange, bind, Except.bind]
      rw [ih]
      simp

theorem mapM_ok_iff {names : List Nat} {read : Nat → Except Status SegmentRange} :
    (∃ ranges, names.mapM read = .ok ranges) ↔ ∀ name ∈ names, ∃ range, read name = .ok range := by
  induction names with
  | nil => simp [pure, Except.pure]
  | cons name rest ih =>
    rw [mapM_cons, forall_mem_cons, ← ih]
    cases first : read name with
    | error status => simp [bind, Except.bind]
    | ok range =>
      cases later : rest.mapM read with
      | error status => simp [bind, Except.bind]
      | ok ranges => simp [bind, Except.bind, pure, Except.pure]

theorem mapM_names_ok_iff (disk : ChangeLogDisk) :
    (∃ ranges, disk.names.mapM (segmentRange opts disk) = .ok ranges) ↔
      ∀ name, ∀ file ∈ disk.segment name, .torn ∉ file.pieces := by
  rw [mapM_ok_iff]
  constructor
  · intro readable name file found
    have listed : name ∈ disk.names := by
      obtain ⟨mem, sameName⟩ := segment_eq_some found
      rw [names, mem_insertionSort, ← sameName]
      exact mem_map_of_mem mem
    have found' : disk.segment name = some file := found
    have read := readable name listed
    rw [segmentRange, found'] at read
    exact (foldlM_extendRange_ok_iff file.pieces _).mp read
  · intro whole name listed
    cases found : disk.segment name with
    | none =>
      rw [names, mem_insertionSort] at listed
      obtain ⟨file, mem, sameName⟩ := mem_map.mp listed
      exact absurd sameName (segment_eq_none_iff.mp found file mem)
    | some file =>
      rw [segmentRange, found]
      exact (foldlM_extendRange_ok_iff file.pieces _).mpr (whole name file found)

def Untorn (disk : ChangeLogDisk) : Prop :=
  ∀ name, ∀ file ∈ disk.segment name, .torn ∉ file.pieces

theorem untorn_write (untorn : Untorn disk) (active : Nat) (rec : ChangeRecord) :
    Untorn (disk.write active (.frame rec)) := by
  intro name file found
  rw [mem_def, segment_write] at found
  split at found
  · rw [← some.inj found]
    cases before : disk.segment active with
    | none => simp
    | some old => simpa [before] using untorn active old before
  · exact untorn name file found

theorem untorn_create (untorn : Untorn disk) (active : Nat) : Untorn (disk.create active) := by
  intro name file found
  cases before : disk.segment name with
  | some old =>
    rw [mem_def, segment_create disk active before] at found
    rw [← some.inj found]
    exact untorn name old before
  | none =>
    rw [mem_def, create] at found
    split at found
    · rw [before] at found
      simp at found
    · rw [ChangeLogDisk.segment] at before
      rw [ChangeLogDisk.segment, find?_append, before, none_or] at found
      have isNew := mem_of_find?_eq_some found
      simp [mem_singleton.mp isNew]

theorem untorn_appendFrame_iff
    (untorn : Untorn log.disk) (rec : ChangeRecord) (out : FrameOutcome) :
    Untorn (log.appendFrame opts rec out).disk ↔ out ≠ .torn := by
  obtain ⟨_, _, _, sameDisk, _⟩ := @selectSegment_fields opts log rec
  rw [← sameDisk] at untorn
  cases out with
  | refused => exact iff_of_true untorn (by simp)
  | created => exact iff_of_true (untorn_create untorn _) (by simp)
  | torn =>
    refine iff_of_false ?_ (by simp)
    intro still
    have found : (log.appendFrame opts rec .torn).disk.segment (log.target opts rec) =
        some ⟨log.target opts rec, ((((log.selectSegment opts rec).disk.segment
          (log.target opts rec)).map SegmentFile.pieces).getD []) ++ [.torn]⟩ := by
      simp only [appendFrame]
      rw [segment_write, if_pos rfl]
    exact still _ _ found (by simp)
  | _ => exact iff_of_true (untorn_write untorn _ rec) (by simp)

theorem untorn_frames (untorn : Untorn log.disk) (recs : List ChangeRecord) :
    Untorn (run (apply opts) log (frameEvents recs)).disk := by
  induction recs generalizing log with
  | nil => exact untorn
  | cons rec rest ih => exact ih ((untorn_appendFrame_iff untorn rec .written).mpr (by simp))

def begunFrames (frames : List ChangeRecord) (crash : AppendCrash) :
    List (ChangeRecord × FrameOutcome) :=
  (frames.take crash.count).map (fun rec => (rec, .written)) ++
    frames[crash.count]?.toList.map fun rec => (rec, crash.next)

theorem Stored.appendEvents_eq
    (stored : Stored opts log) (ver : UInt64) (recs : List ChangeRecord) :
    ∃ manifest, appendEvents opts log ver recs =
      frameEvents (stamp opts (log.highWatermark + 1) ver recs) ++
        ((if recs.isEmpty then [] else [.advance recs.length ver]) ++
          [.persistSnapshot]) ++ [.persistManifest manifest] := by
  obtain ⟨manifest, _, events⟩ := append_of_ok (stored.append_ok ver recs)
  refine ⟨manifest, ?_⟩
  rw [appendEvents, events, batchEvents, append_assoc (frameEvents _)]

/-- Events that leave the segments and the manifest alone. -/
def ChangeLogEvent.Beside : ChangeLogEvent → Prop
  | .advance _ _ => True
  | .persistSnapshot => True
  | _ => False

theorem run_beside
    {events : List ChangeLogEvent} (beside : ∀ event ∈ events, ChangeLogEvent.Beside event)
    (log : PartitionChangeLog) :
    let after := run (apply opts) log events
    after.disk.segments = log.disk.segments ∧ after.disk.manifest = log.disk.manifest ∧
      after.snapshotRecords = log.snapshotRecords ∧
      ∀ rec ∈ after.disk.snapshot, rec ∈ log.disk.snapshot ∨ rec ∈ log.snapshotRecords := by
  induction events generalizing log with
  | nil => exact ⟨rfl, rfl, rfl, fun rec mem => Or.inl mem⟩
  | cons event rest ih =>
    obtain ⟨first, others⟩ := forall_mem_cons.mp beside
    obtain ⟨segments, manifest, snapshotRecords, snap⟩ :=
      ih others (log.apply opts event)
    cases event with
    | appendFrame rec out => exact first.elim
    | persistManifest written => exact first.elim
    | advance count _ => exact ⟨segments, manifest, snapshotRecords, snap⟩
    | persistSnapshot =>
      refine ⟨segments, manifest, snapshotRecords, ?_⟩
      intro rec mem
      rcases snap rec mem with onDisk | inMemory
      · exact Or.inr onDisk
      · exact Or.inr inMemory

theorem map_frameEvent_written (recs : List ChangeRecord) :
    (recs.map fun rec => (rec, FrameOutcome.written)).map frameEvent = frameEvents recs := by
  simp [frameEvents, frameEvent]

theorem map_begunFrames_inside {frames : List ChangeRecord} (lt : crash.count < frames.length) :
    (begunFrames frames crash).map frameEvent =
      frameEvents (frames.take crash.count) ++ [.appendFrame frames[crash.count] crash.next] := by
  rw [begunFrames, map_append, map_frameEvent_written, getElem?_eq_getElem lt]
  rfl

theorem map_begunFrames_behind {frames : List ChangeRecord} (behind : frames.length ≤ crash.count) :
    (begunFrames frames crash).map frameEvent = frameEvents frames := by
  rw [begunFrames, getElem?_eq_none behind, take_of_length_le behind,
    map_append, map_frameEvent_written]
  simp

section Crashed

variable {frames : List ChangeRecord} {others : List ChangeLogEvent}
  {manifest : ChangeLogManifest} {crash : AppendCrash}

theorem crashed_in_frames
    (inFrames : crash.count < frames.length) :
    let events := frameEvents frames ++ (others ++ [ChangeLogEvent.persistManifest manifest])
    let after := run (apply opts) log
      (events.take crash.count ++ begunEvent crash.next events[crash.count]?)
    after = run (apply opts) log ((begunFrames frames crash).map frameEvent) ∧
      after.disk.manifest = log.disk.manifest ∧ after.disk.snapshot = log.disk.snapshot := by
  have inEvents : crash.count < (frameEvents frames).length := by
    simpa [frameEvents] using inFrames
  have taken : (frameEvents frames ++
      (others ++ [ChangeLogEvent.persistManifest manifest])).take crash.count =
      frameEvents (frames.take crash.count) := by
    rw [take_append_of_le_length (Nat.le_of_lt inEvents), frameEvents, ← map_take]
    rfl
  have next : (frameEvents frames ++
      (others ++ [ChangeLogEvent.persistManifest manifest]))[crash.count]? =
      some (.appendFrame frames[crash.count] .written) := by
    rw [getElem?_append_left inEvents, frameEvents, getElem?_map,
      getElem?_eq_getElem inFrames, map_some]
  obtain ⟨_, _, _, snap, manifestKept, _, _⟩ :=
    @run_frameEvents opts (frames.take crash.count) log
  obtain ⟨frameManifest, _, frameSnapshot⟩ := @manifest_appendFrame opts
    (run (apply opts) log (frameEvents (frames.take crash.count)))
    frames[crash.count] crash.next
  dsimp only
  rw [taken, next, map_begunFrames_inside inFrames, begunEvent, run, foldl_append, ← run]
  exact ⟨rfl, frameManifest.trans manifestKept, frameSnapshot.trans snap⟩

theorem begunEvent_behind (besides : ∀ event ∈ others, ChangeLogEvent.Beside event) (index : Nat) :
    begunEvent crash.next (others ++ [ChangeLogEvent.persistManifest manifest])[index]? = [] := by
  cases found : (others ++ [ChangeLogEvent.persistManifest manifest])[index]? with
  | none => rfl
  | some event =>
    rcases mem_append.mp (mem_of_getElem? found) with inOthers | isManifest
    · have beside := besides event inOthers
      cases event with
      | appendFrame rec out => exact beside.elim
      | _ => rfl
    · rw [mem_singleton.mp isManifest]
      rfl

theorem crashed_behind_frames (besides : ∀ event ∈ others, ChangeLogEvent.Beside event)
    (behind : frames.length ≤ crash.count)
    (early : crash.count < (frameEvents frames ++
      (others ++ [ChangeLogEvent.persistManifest manifest])).length) :
    let events := frameEvents frames ++ (others ++ [ChangeLogEvent.persistManifest manifest])
    let after := run (apply opts) log
      (events.take crash.count ++ begunEvent crash.next events[crash.count]?)
    after.disk.segments = (run (apply opts) log
        ((begunFrames frames crash).map frameEvent)).disk.segments ∧
      after.disk.manifest = log.disk.manifest ∧
      ∀ rec ∈ after.disk.snapshot,
        rec ∈ log.disk.snapshot ∨ rec ∈ log.snapshotRecords ++ frames := by
  have length : (frameEvents frames).length = frames.length := by
    simp [frameEvents]
  simp only [length_append, length_singleton, length] at early
  have short : crash.count - (frameEvents frames).length ≤ others.length := by omega
  have behindEvents : (frameEvents frames).length ≤ crash.count := by omega
  have taken : (frameEvents frames ++
      (others ++ [ChangeLogEvent.persistManifest manifest])).take crash.count =
      frameEvents frames ++ others.take (crash.count - (frameEvents frames).length) := by
    rw [take_append, take_of_length_le behindEvents, take_append_of_le_length short]
  obtain ⟨snapshotRecords, _, _, snap, manifestKept, _, _⟩ :=
    @run_frameEvents opts frames log
  obtain ⟨segments, manifestBeside, _, snapshotBeside⟩ := @run_beside opts
    (others.take (crash.count - (frameEvents frames).length))
    (fun event mem => besides event (mem_of_mem_take mem))
    (run (apply opts) log (frameEvents frames))
  dsimp only
  rw [taken, getElem?_append_right behindEvents, begunEvent_behind besides,
    map_begunFrames_behind behind, append_nil, run, foldl_append, ← run]
  refine ⟨segments, manifestBeside.trans manifestKept, ?_⟩
  intro rec mem
  rcases snapshotBeside rec mem with onDisk | inMemory
  · rw [snap] at onDisk
    exact Or.inl onDisk
  · rw [snapshotRecords] at inMemory
    exact Or.inr inMemory

end Crashed

theorem Stored.crashed (stored : Stored opts log)
    (early : crash.count < (appendEvents opts log ver recs).length) :
    let disk := crashedDisk opts log ver recs crash
    let cur := run (apply opts) log ((begunFrames
      (stamp opts (log.highWatermark + 1) ver recs) crash).map frameEvent)
    disk.segments = cur.disk.segments ∧ disk.manifest = log.disk.manifest ∧
      ∀ rec ∈ disk.snapshot, Own opts rec := by
  obtain ⟨manifest, events⟩ := stored.appendEvents_eq ver recs
  have besides : ∀ event ∈ (if recs.isEmpty then []
      else [ChangeLogEvent.advance recs.length ver]) ++ [.persistSnapshot],
      ChangeLogEvent.Beside event := by
    cases recs.isEmpty with
    | true => simp [ChangeLogEvent.Beside]
    | false => simp [ChangeLogEvent.Beside]
  rw [append_assoc] at events
  rw [events] at early
  simp only [crashedDisk, events]
  by_cases inFrames :
      crash.count < (stamp opts (log.highWatermark + 1) ver recs).length
  · obtain ⟨same, sameManifest, sameSnapshot⟩ := crashed_in_frames inFrames
    refine ⟨by rw [same], sameManifest, ?_⟩
    rw [sameSnapshot]
    exact stored.ownDisk
  · obtain ⟨segments, sameManifest, snap⟩ :=
      crashed_behind_frames besides (Nat.not_lt.mp inFrames) early
    refine ⟨segments, sameManifest, ?_⟩
    intro rec mem
    rcases snap rec mem with onDisk | inMemory
    · exact stored.ownDisk rec onDisk
    · rcases mem_append.mp inMemory with before | new
      · exact stored.ownSnapshot rec before
      · exact (own_stamp new).1

/-! ## Logs built by appends -/

inductive Grown (opts : ChangeLogOptions) : PartitionChangeLog → Prop
  | created {log : PartitionChangeLog} (read : openLog opts ⟨[], [], none⟩ = .ok log) :
      Grown opts log
  | appended {log : PartitionChangeLog} (grown : Grown opts log)
      (ver : UInt64) (recs : List ChangeRecord) (out : AppendOutcome)
      (complete : (log.appendCommittedBatch opts ver recs out).2 = .ok ()) :
      Grown opts (run (apply opts) log (log.appendCommittedBatch opts ver recs out).1)
  | reopened {log reopened : PartitionChangeLog} (grown : Grown opts log)
      (read : openLog opts log.disk = .ok reopened) : Grown opts reopened

theorem Grown.maintained (grown : Grown opts log) : Maintained opts log := by
  induction grown with
  | created read => exact .created read
  | appended _ ver recs out complete ih =>
    exact .appended ih ver recs out complete
  | reopened _ read ih => exact .reopened ih read

theorem Stored.append_watermarks (stored : Stored opts log) {out : AppendOutcome}
    (complete : (log.appendCommittedBatch opts ver recs out).2 = .ok ()) :
    let appended := run (apply opts) log (log.appendCommittedBatch opts ver recs out).1
    appended.highWatermark = log.highWatermark + recs.length ∧
      appended.committedVersion =
        (if recs.isEmpty then log.committedVersion
          else max log.committedVersion ver) := by
  obtain ⟨manifest, _, events⟩ := append_of_ok complete
  obtain ⟨_, watermark, _⟩ := @Layout.advance opts log stored.layout ver recs
  obtain ⟨_, sameVersion, _⟩ := stored.advanced_fields ver recs
  rw [events]
  simp only [run, foldl_append, foldl_cons, foldl_nil]
  exact ⟨watermark, sameVersion⟩

theorem Stored.reopenable_append (stored : Stored opts log) (reopenable : Reopenable log)
    {out : AppendOutcome} (complete : (log.appendCommittedBatch opts ver recs out).2 = .ok ()) :
    Reopenable (run (apply opts) log (log.appendCommittedBatch opts ver recs out).1) := by
  have extended := (stored.append complete).2
  obtain ⟨watermark, sameVersion⟩ := stored.append_watermarks complete
  rw [Reopenable, extended, watermark, sameVersion]
  cases recs with
  | nil => simpa [stamp, Reopenable] using reopenable
  | cons rec rest =>
    obtain ⟨_, right, attained⟩ := max_version log.committedVersion ver
    have batchAttains : max log.committedVersion ver = ver →
        ∃ stamped ∈ log.records ++ stamp opts (log.highWatermark + 1) ver (rec :: rest),
          stamped.commitVersion = max log.committedVersion ver := by
      intro larger
      obtain ⟨stamped, mem⟩ := exists_mem_of_ne_nil
        (stamp opts (log.highWatermark + 1) ver (rec :: rest)) (by simp [stamp])
      exact ⟨stamped, mem_append_right _ mem, (own_stamp mem).2.trans larger.symm⟩
    right
    simp only [isEmpty_cons, Bool.false_eq_true, if_false]
    rcases attained with old | new
    · rcases reopenable with unused | ⟨oldest, mem, oldVersion⟩
      · apply batchAttains
        rw [old, stored.unused unused] at right ⊢
        exact UInt64.le_antisymm UInt64.zero_le right
      · exact ⟨oldest, mem_append_left _ mem, oldVersion.trans old.symm⟩
    · exact batchAttains new

theorem Grown.reopenable (grown : Grown opts log) : Reopenable log := by
  induction grown with
  | created read =>
    have recovered := (recover_of_openLog read).1
    rw [recover_empty] at recovered
    rw [← Except.ok.inj recovered]
    exact Or.inl rfl
  | appended grown ver recs out complete ih =>
    exact grown.maintained.stored.reopenable_append ih complete
  | reopened grown read ih =>
    have view := (grown.maintained.stored.recovered (recover_of_openLog read).1).1
    rw [Reopenable, view.records, view.highWatermark, view.committedVersion]
    exact ih

/-! ## What a crash leaves -/

section Survival

variable {ver : UInt64} {recs : List ChangeRecord} {crash : AppendCrash}
  {disk : ChangeLogDisk}

theorem Maintained.survives_of_records
    (maintained : Maintained opts log) {reopened : PartitionChangeLog}
    (read : recover opts disk = .ok reopened) {batch : List ChangeRecord}
    (allOrNone : batch = [] ∨ batch = stamp opts (log.highWatermark + 1) ver recs)
    (found : reopened.records = log.records ++ batch) : Survives opts log ver recs disk := by
  refine ⟨reopened, (maintained.openLog_eq disk).trans read, batch, allOrNone, ?_⟩
  intro offset limitRecords limitBytes
  rw [readAfter, readAfter, found]

theorem Grown.survives_tailed
    (grown : Grown opts log) (filled : log.records ≠ []) {tail : List SegmentPiece}
    (tailed : Tailed opts log tail disk) (repairable : tail = [] ∨ tail = [.torn]) :
    Survives opts log ver recs disk := by
  have stored := grown.maintained.stored
  have attained : maxVersion 0 log.records = log.committedVersion := by
    rw [maxVersion_eq_iff filled stored.versions]
    rcases grown.reopenable with unused | attained
    · have length := length_pos_iff.mpr filled
      have reaches := stored.reaches
      have positive := stored.positive
      omega
    · exact attained
  have read := stored.recover_tailed filled tailed repairable
  rw [if_pos attained] at read
  apply grown.maintained.survives_of_records read (Or.inl rfl)
  rw [(reopenedLog_sameView stored filled attained).records, append_nil]

theorem Drifted.tailed {tail : List SegmentPiece} {cur : PartitionChangeLog}
    (drifted : Drifted log tail cur) (segments : disk.segments = cur.disk.segments)
    (manifest : disk.manifest = log.disk.manifest)
    (own : ∀ rec ∈ disk.snapshot, Own opts rec) : Tailed opts log tail disk := by
  refine ⟨manifest, ?_, own⟩
  intro name mem
  rw [ChangeLogDisk.segment, segments]
  exact drifted.files name mem

theorem Grown.survives_replaced (grown : Grown opts log)
    (replaced : (appendEvents opts log ver recs).length ≤ crash.count) :
    Survives opts log ver recs (crashedDisk opts log ver recs crash) := by
  have stored := grown.maintained.stored
  have complete := stored.append_ok ver recs
  obtain ⟨appended, extended⟩ := stored.append complete
  obtain ⟨reopened, read⟩ :=
    appended.recover_iff.mpr (stored.reopenable_append grown.reopenable complete)
  have view := (appended.recovered read).1
  have nothing : begunEvent crash.next none = [] := rfl
  rw [crashedDisk, getElem?_eq_none replaced, take_of_length_le replaced, nothing, append_nil]
  exact grown.maintained.survives_of_records read (Or.inr rfl) (view.records.trans extended)

theorem untorn_begunFrames_iff (untorn : Untorn log.disk) (frames : List ChangeRecord) :
    Untorn (run (apply opts) log ((begunFrames frames crash).map frameEvent)).disk ↔
      ¬ (crash.count < frames.length ∧ crash.next = .torn) := by
  by_cases lt : crash.count < frames.length
  · rw [map_begunFrames_inside lt, run, foldl_append, ← run]
    rw [and_iff_right lt]
    exact untorn_appendFrame_iff (untorn_frames untorn _) _ _
  · rw [map_begunFrames_behind (Nat.not_lt.mp lt)]
    simp [lt, untorn_frames untorn]

theorem Grown.survives_first_iff (grown : Grown opts log) (empty : log.records = [])
    (early : crash.count < (appendEvents opts log ver recs).length) :
    Survives opts log ver recs (crashedDisk opts log ver recs crash) ↔
      ¬ (crash.count < recs.length ∧ crash.next = .torn) := by
  have stored := grown.maintained.stored
  have unused : log.highWatermark = 0 := by
    rcases grown.reopenable with unused | ⟨rec, mem, _⟩
    · exact unused
    · simp [empty] at mem
  obtain ⟨segments, manifest, own⟩ := stored.crashed early
  have read := stored.recover_unused unused manifest own
  have untorn : Untorn log.disk := by
    intro name file found
    simp [ChangeLogDisk.segment, stored.segments_eq_nil empty] at found
  have sameFiles : Untorn (crashedDisk opts log ver recs crash) ↔
      Untorn (run (apply opts) log ((begunFrames
        (stamp opts (log.highWatermark + 1) ver recs) crash).map frameEvent)).disk := by
    simp only [Untorn, ChangeLogDisk.segment, segments]
  rw [← @length_stamp opts _ ver recs, ← @untorn_begunFrames_iff opts log crash untorn,
    ← sameFiles, Untorn, ← @mapM_names_ok_iff opts]
  constructor
  · intro survives
    obtain ⟨reopened, opened, _⟩ := survives
    rw [grown.maintained.openLog_eq, read] at opened
    split at opened
    · simp at opened
    · rename_i ranges found
      exact ⟨ranges, found⟩
  · intro readable
    obtain ⟨ranges, found⟩ := readable
    rw [found] at read
    apply grown.maintained.survives_of_records read (Or.inl rfl)
    rw [empty]
    rfl

theorem begunFrames_cons (first : ChangeRecord) (others : List ChangeRecord)
    (length : recs.length = others.length + 1) :
    ∃ out rest, begunFrames (first :: others) crash = (first, out) :: rest ∧
      (out.isWhole = false ↔ wholeFrames recs crash = 0) ∧
      (out.isWhole = false → rest = []) := by
  obtain ⟨count, next⟩ := crash
  cases count with
  | zero =>
    refine ⟨next, [], by simp [begunFrames], ?_, fun _ => rfl⟩
    simp [wholeFrames, length]
  | succ count =>
    refine ⟨.written, _, by simp [begunFrames]; rfl, ?_, ?_⟩
    · simp only [isWhole, wholeFrames, length]
      split <;> simp
    · simp [isWhole]

theorem Grown.survives_filled_iff (grown : Grown opts log) (filled : log.records ≠ [])
    (early : crash.count < (appendEvents opts log ver recs).length) :
    Survives opts log ver recs (crashedDisk opts log ver recs crash) ↔
      wholeFrames recs crash = 0 ∨ Rolls opts log ver recs := by
  have stored := grown.maintained.stored
  obtain ⟨segments, manifest, own⟩ := stored.crashed early
  have length := @length_stamp opts (log.highWatermark + 1) ver recs
  have later : ∀ rec ∈ stamp opts (log.highWatermark + 1) ver recs,
      log.highWatermark < rec.offset := by
    intro rec mem
    exact (offset_stamp_bounds mem).1
  rw [Rolls]
  cases stamped : stamp opts (log.highWatermark + 1) ver recs with
  | nil =>
    have noRecords : recs = [] := by
      rw [stamped] at length
      exact eq_nil_of_length_eq_zero length.symm
    have noFrames : begunFrames [] crash = [] := by
      simp [begunFrames]
    rw [stamped, noFrames] at segments
    have tailed := stored.drifted.tailed segments manifest own
    simp only [wholeFrames, noRecords, length_nil, Nat.not_lt_zero, if_false, true_or, iff_true]
    rw [← noRecords]
    exact grown.survives_tailed filled tailed (Or.inl rfl)
  | cons first others =>
    rw [stamped] at length segments later
    obtain ⟨out, rest, begun, whole, alone⟩ :=
      @begunFrames_cons recs crash first others length.symm
    have new : ∀ frame ∈ (first, out) :: rest, log.highWatermark < frame.1.offset := by
      rw [← begun, begunFrames]
      intro frame mem
      rcases mem_append.mp mem with before | next
      · obtain ⟨rec, inTake, rfl⟩ := mem_map.mp before
        exact later rec (mem_of_mem_take inTake)
      · obtain ⟨rec, found, rfl⟩ := mem_map.mp next
        exact later rec (mem_of_getElem? (mem_toList.mp found))
    have drifted := stored.drifted_frames filled new
    rw [begun] at segments
    simp only [head?_cons, mem_some_iff, exists_eq_left', ← whole]
    split at drifted
    · rename_i rolls
      simp only [rolls, or_true, iff_true]
      exact grown.survives_tailed filled (drifted.tailed segments manifest own) (Or.inl rfl)
    · rename_i stays
      obtain ⟨more, drifted, noMore⟩ := drifted
      rw [or_iff_left stays]
      have tailed := drifted.tailed segments manifest own
      cases isWhole : out.isWhole with
      | true =>
        have pieces : out.pieces first = [.frame first] := by
          cases out with
          | torn => simp [FrameOutcome.isWhole] at isWhole
          | _ => simp [pieces, isWhole]
        rw [pieces] at tailed
        simp only [Bool.true_eq_false, iff_false]
        intro survives
        obtain ⟨reopened, opened, _⟩ := survives
        rw [grown.maintained.openLog_eq] at opened
        exact stored.recover_extended filled tailed reopened opened
      | false =>
        rw [noMore (alone isWhole), append_nil] at tailed
        simp only [iff_true]
        apply grown.survives_tailed filled tailed
        cases out with
        | torn => exact Or.inr rfl
        | _ => simp [pieces, isWhole]

end Survival

/-- A crash during an append is survived exactly when it is harmless. -/
theorem survives_crash_iff
    (opts : ChangeLogOptions) (log : PartitionChangeLog) (grown : Grown opts log)
    (ver : UInt64) (recs : List ChangeRecord) (crash : AppendCrash) :
    Survives opts log ver recs (crashedDisk opts log ver recs crash) ↔
      Harmless opts log ver recs crash := by
  rw [Harmless]
  by_cases replaced : (appendEvents opts log ver recs).length ≤ crash.count
  · simp [replaced, grown.survives_replaced replaced]
  · rw [or_iff_right replaced]
    by_cases empty : log.records = []
    · rw [if_pos empty]
      exact grown.survives_first_iff empty (Nat.lt_of_not_le replaced)
    · rw [if_neg empty]
      exact grown.survives_filled_iff empty (Nat.lt_of_not_le replaced)

theorem survives_torn_frame :
    let opts : ChangeLogOptions := ⟨0, 0, 100, 10, 1000, fun _ => 20⟩
    let record : ChangeRecord :=
      ⟨0, 0, 0, 0, 7, 0, 0, 1, 0, 0, 0, 0, .update, 5, 0, []⟩
    let log := run (apply opts) (emptyLog opts) (appendEvents opts (emptyLog opts) 5 [record])
    Survives opts log 10 [record] (crashedDisk opts log 10 [record] ⟨0, .torn⟩) := by
  intro opts record log
  have grown : Grown opts log :=
    .appended (.created (by decide)) 5 [record] ⟨fun _ => .written, true, true⟩ (by decide)
  rw [survives_crash_iff opts log grown]
  right
  rw [if_neg (by decide)]
  left
  decide

/-- A complete frame that the manifest does not list, and a torn frame in a log without
segments. -/
theorem crash_not_survived :
    let opts : ChangeLogOptions := ⟨0, 0, 100, 10, 1000, fun _ => 20⟩
    let record : ChangeRecord :=
      ⟨0, 0, 0, 0, 7, 0, 0, 1, 0, 0, 0, 0, .update, 5, 0, []⟩
    let log := run (apply opts) (emptyLog opts) (appendEvents opts (emptyLog opts) 5 [record])
    (openLog opts log.disk).isOk = true ∧
      (openLog opts (crashedDisk opts log 10 [record] ⟨1, .refused⟩)).isOk = false ∧
      (openLog opts (crashedDisk opts log 10 [record, record] ⟨1, .torn⟩)).isOk = false ∧
      (openLog opts (crashedDisk opts (emptyLog opts) 10 [record] ⟨0, .torn⟩)).isOk = false := by
  decide

end PartitionChangeLog

end CedarGraph
