import CedarGraph.Compaction.Visibility
import CedarGraph.Engine.TimeTravel

/-!
# Time-travel reads while files are merged

Every flush schedules a compaction, and a background thread then merges the files of a task. The
merge moves rows to other files and sets their transaction versions. As long as every put is the
newest version of its column and no merge drops a row, `GetAtTime` answers with the newest put.
-/

namespace CedarGraph

open Newest VSLMemTable FixedWidth List Runs CompactionEngine CompactionStore ZoneSstMeta RangeQuery

namespace LsmEngine

/-- The files as a compaction finds them. -/
def fileStore (zone : CompactionEngine) (disk : Nat → Option SstFile) (next : Nat)
    (safePoint : UInt64) : CompactionStore where
  engine := zone
  disk number := (disk number).elim .absent .complete
  manifest := none
  nextFileNumber := next
  gcSafePoint := safePoint
  unfinished := []

def files (eng : LsmEngine) (safePoint : UInt64) : CompactionStore :=
  fileStore eng.compactionEngine eng.disk eng.nextFileNumber safePoint

/-- A background thread runs a task that `ScheduleCompaction` has picked. -/
def executeCompaction (opts : CompactionOptions) (eng : LsmEngine) (safePoint : UInt64)
    (task : CompactionTask) (out : CompactionOutcome) : LsmEngine :=
  let done := ((eng.files safePoint).executeCompaction opts task out).1
  { eng with
    compactionEngine := done.engine
    disk := fun number => (done.disk number).contents
    nextFileNumber := done.nextFileNumber }

theorem contents_fileStore (zone : CompactionEngine) (disk : Nat → Option SstFile)
    (next : Nat) (safePoint : UInt64) (number : Nat) :
    ((fileStore zone disk next safePoint).disk number).contents = disk number := by
  dsimp only [fileStore]
  cases disk number with
  | none => rfl
  | some sst => rfl

/-- The listed files hold the rows of the flushed files, up to transaction versions; a flushed
file that is still there is as it was written. -/
structure Merged (opts : CompactionOptions) (store : CompactionStore)
    (files : List FileLayer) : Prop where
  sound : store.Sound opts
  everyColumn : ∀ file ∈ store.engine.levels.all, file.columnId = uint16Max ∧ file.entityType = 0
  filters : ∀ file ∈ store.engine.levels.all, ∀ row ∈ store.rowsOf file.fileNumber,
    passesTemporalFilter row.key.entityId file = true
  rows : ∀ row, row ∈ store.listedRows.map Row.merged ↔
    row ∈ (files.map FileLayer.rows).flatten.map Row.merged
  written : ∀ layer ∈ files, layer.number < store.nextFileNumber ∧
    ∀ sst, (store.disk layer.number).contents = some sst →
      sst.Indexable ∧ ∀ row ∈ sst.rows, row ∈ layer.rows

section Merged

variable {opts : CompactionOptions} {store after : CompactionStore} {files : List FileLayer}

theorem Merged.congr (merged : Merged opts store files)
    (levels : after.engine.levels = store.engine.levels)
    (disk : ∀ number < store.nextFileNumber,
      (after.disk number).contents = (store.disk number).contents)
    (next : store.nextFileNumber ≤ after.nextFileNumber) : Merged opts after files := by
  have counted := merged.sound.counted
  have sameRows : ∀ file ∈ store.engine.levels.all,
      after.rowsOf file.fileNumber = store.rowsOf file.fileNumber := by
    intro file listed
    rw [rowsOf, disk _ (counted file listed)]
    rfl
  refine ⟨⟨?_, ?_, ?_, ?_⟩, ?_, ?_, ?_, ?_⟩
  · rw [levels]
    exact merged.sound.length
  · rw [levels]
    exact merged.sound.unique
  · rw [levels]
    exact fun file listed => (counted file listed).trans_le next
  · rw [levels]
    intro file listed
    obtain ⟨sst, entry, rest⟩ := merged.sound.readable file listed
    refine ⟨sst, DiskEntry.eq_complete_of_contents ?_, rest⟩
    rw [disk _ (counted file listed), entry]
    rfl
  · rw [levels]
    exact merged.everyColumn
  · rw [levels]
    intro file listed
    rw [sameRows file listed]
    exact merged.filters file listed
  · rw [CompactionStore.listedRows, levels, flatMap_congr sameRows]
    exact merged.rows
  · intro layer member
    obtain ⟨below, written⟩ := merged.written layer member
    rw [disk _ below]
    exact ⟨below.trans_le next, written⟩

/-- The condition on a compaction: its files are listed and open, their rows fit one file, and
none of them is a tombstone to drop. -/
structure Mergeable (opts : CompactionOptions) (store : CompactionStore) (task : CompactionTask)
    (out : CompactionOutcome) : Prop where
  lists : store.Lists task
  inputs : task.inputFiles ≠ []
  opened : ∀ file ∈ task.files, out.opens file.fileNumber = true
  small : SstFile.Small (store.taskRows task)
  keeps : ∀ row ∈ store.taskRows task, store.Keeps opts task row

variable {task : CompactionTask} {out : CompactionOutcome}

theorem Merged.agrees (merged : Merged opts store files)
    (strict : (files.map FileLayer.rows).flatten.Pairwise Older) (lists : store.Lists task) :
    store.Agrees task := by
  have flushed : ∀ row ∈ store.taskRows task,
      ∃ source ∈ (files.map FileLayer.rows).flatten, source.merged = row.merged := by
    intro row member
    obtain ⟨file, inTask, inFile⟩ := mem_flatMap.mp member
    exact mem_map.mp ((merged.rows _).mp (mem_map_of_mem
      (mem_flatMap.mpr ⟨file, lists.mem_all inTask, inFile⟩)))
  intro left leftMember right rightMember same
  obtain ⟨first, firstMember, firstSame⟩ := flushed left leftMember
  obtain ⟨second, secondMember, secondSame⟩ := flushed right rightMember
  have firstKey := Row.key_eq_of_merged_eq firstSame
  have secondKey := Row.key_eq_of_merged_eq secondSame
  obtain ⟨entity, stamp, -, column, -⟩ := of_decide_eq_true same
  rw [← firstKey, ← secondKey] at entity stamp column
  have isSame := eq_of_time_eq (increasing_of_older strict second.key.entityId
    second.key.columnId) first (mem_filter.mpr ⟨firstMember, inColumn_iff.mpr ⟨entity, column⟩⟩)
    second (mem_filter.mpr ⟨secondMember, inColumn_iff.mpr ⟨rfl, rfl⟩⟩)
    (congrArg UInt64.toNat stamp)
  rw [← firstSame, isSame, secondSame]

theorem Merged.doZoneCompaction (merged : Merged opts store files)
    (strict : (files.map FileLayer.rows).flatten.Pairwise Older)
    (allowed : Mergeable opts store task out) :
    Merged opts (store.doZoneCompaction opts task out).1 files := by
  rcases doZoneCompaction_cases with ⟨-, entry, res⟩ | ⟨complete, someRows, -⟩
  · rw [res]
    refine merged.congr rfl (fun number below => ?_) (Nat.le_succ _)
    exact congrArg DiskEntry.contents (Function.update_of_ne below.ne _ _)
  have updated : store.Updated opts _ task out := updated_doZoneCompaction complete someRows
  obtain ⟨first, rest, isFirst⟩ := exists_cons_of_ne_nil allowed.inputs
  have head : task.inputFiles.head? = some first := by rw [isFirst]; rfl
  have firstColumn := merged.everyColumn first (allowed.lists.mem_all
    (mem_append_left _ (by rw [isFirst]; exact mem_cons_self)))
  have uniform : task.Uniform := by
    refine ⟨first, head, fun file inTask => ?_⟩
    have column := merged.everyColumn file (allowed.lists.mem_all inTask)
    exact ⟨column.1.trans firstColumn.1.symm, column.2.trans firstColumn.2.symm⟩
  have inAll := fun {file : ZoneSstMeta} => @Updated.mem_all_iff opts store task out _ updated
    allowed.lists file
  refine ⟨updated.isSound merged.sound allowed.lists uniform allowed.small, ?_, ?_, ?_, ?_⟩
  · intro file listed
    rcases inAll.mp listed with ⟨old, -⟩ | rfl
    · exact merged.everyColumn file old
    · rw [CompactionTask.outputMeta, head]
      exact firstColumn
  · intro file listed row member
    rcases inAll.mp listed with ⟨old, kept⟩ | rfl
    · rw [updated.rowsOf_other (merged.sound.counted file old) kept] at member
      exact merged.filters file old row member
    · rfl
  · intro row
    rw [← merged.rows row]
    exact updated.merged_listedRows merged.sound allowed.lists
      (merged.agrees strict allowed.lists) allowed.opened allowed.keeps
  · intro layer member
    obtain ⟨below, written⟩ := merged.written layer member
    refine ⟨by rw [updated.next]; exact Nat.lt_succ_of_lt below, fun sst found => ?_⟩
    rcases updated.disk layer.number with same | ⟨-, removed⟩
    · rw [same, disk_moved below] at found
      exact written sst found
    · rw [removed] at found
      cases found

theorem Merged.executeCompaction {eng : LsmEngine} {safePoint : UInt64}
    (merged : Merged opts (eng.files 0) files)
    (strict : (files.map FileLayer.rows).flatten.Pairwise Older)
    (allowed : Mergeable opts (eng.files safePoint) task out) :
    Merged opts ((eng.executeCompaction opts safePoint task out).files 0) files := by
  let marked : CompactionStore :=
    { eng.files safePoint with engine := eng.compactionEngine.mark task.files }
  have markedMerged : Merged opts marked files := merged.congr rfl (fun _ _ => rfl) le_rfl
  have lists := allowed.lists
  have markedAllowed : Mergeable opts marked task out :=
    ⟨⟨lists.unique, lists.counted, lists.inside, lists.inputs, lists.overlapping⟩,
      allowed.inputs, allowed.opened, allowed.small, allowed.keeps⟩
  exact (markedMerged.doZoneCompaction strict markedAllowed).congr rfl
    (fun number _ => contents_fileStore _ _ _ _ number) le_rfl

/-- A flush adds a file at level 0. -/
theorem merged_install {zone : CompactionEngine} {disk : Nat → Option SstFile} {next : Nat}
    {flushed rows : List Row} {engineFilter zoneFilter : Option Bytes}
    (merged : Merged opts (fileStore zone disk next 0) files) (perm : flushed.Perm rows)
    (indexable : SstFile.Indexable ⟨.default, opts.lsm.rowSort.sort flushed⟩)
    (filter : zoneFilter = none ∨ zoneFilter = temporalFilterOf flushed) :
    Merged opts (fileStore
      (zone.addSSTFile opts.lsm.compactionConfig (flushMeta opts.lsm next flushed zoneFilter))
      (Function.update disk next (some ⟨.default, opts.lsm.rowSort.sort flushed⟩)) (next + 1) 0)
      (files ++ [⟨next, flushed, rows, engineFilter, zoneFilter⟩]) := by
  have counted : ∀ file ∈ zone.levels.all, file.fileNumber < next := merged.sound.counted
  have isNew : ∀ file ∈ zone.levels.all, file.fileNumber ≠ next :=
    fun file listed => (counted file listed).ne
  have newAtLevel0 : ∀ file ∈ zone.levels.files 0, file.fileNumber ≠ next :=
    fun file listed => isNew file (Levels.mem_all_of_mem_files listed)
  have enough := opts.config.twoLevels
  have lt : 0 < zone.levels.length := (Nat.zero_lt_of_lt enough).trans_eq merged.sound.length.symm
  have sorted : ∀ {row}, row ∈ opts.lsm.rowSort.sort flushed ↔ row ∈ rows := fun {row} =>
    ((opts.lsm.rowSort.perm flushed).trans perm).mem_iff
  rw [show zone.addSSTFile _ _ = _ from
    addSSTFile_of_new (Nat.zero_lt_of_lt enough) newAtLevel0]
  -- the old files are read as before, the new one holds the flushed rows
  generalize isAfter : fileStore _ (Function.update disk next _) (next + 1) 0 = after
  have levels : after.engine.levels = zone.levels.setFiles 0
      (zone.levels.files 0 ++ [flushMeta opts.lsm next flushed zoneFilter]) := by
    rw [← isAfter]
    rfl
  have inAll := fun {file : ZoneSstMeta} => levels ▸ @Levels.mem_all_push_iff 0
    zone.levels lt (flushMeta opts.lsm next flushed zoneFilter) file
  have isNext : after.nextFileNumber = next + 1 := by rw [← isAfter]; rfl
  have output : after.disk next = .complete ⟨.default, opts.lsm.rowSort.sort flushed⟩ := by
    rw [← isAfter]
    dsimp only [fileStore]
    rw [Function.update_self]
    rfl
  have other : ∀ number < next, after.disk number = (fileStore zone disk next 0).disk number := by
    intro number below
    rw [← isAfter]
    dsimp only [fileStore]
    rw [Function.update_of_ne below.ne]
  have newRows : after.rowsOf next = opts.lsm.rowSort.sort flushed := by
    rw [rowsOf, output]
    rfl
  have oldRows : ∀ file ∈ zone.levels.all,
      after.rowsOf file.fileNumber = (fileStore zone disk next 0).rowsOf file.fileNumber := by
    intro file listed
    rw [rowsOf, other _ (counted file listed)]
    rfl
  refine ⟨⟨?_, ?_, ?_, ?_⟩, ?_, ?_, ?_, ?_⟩
  · rw [levels]
    exact length_set.trans merged.sound.length
  · rw [levels]
    refine merged.sound.unique.add ?_ 0 isNew fun member =>
      (Levels.mem_files_push lt member).imp_right fun added => ⟨added.2, by rw [added.1]; rfl⟩
    exact @CompactionTask.distinct_pushOutput ⟨0, 0, [], []⟩ _ zone lt
      merged.sound.unique.distinct newAtLevel0
  · intro file listed
    rw [isNext]
    rcases inAll.mp listed with old | rfl
    · exact Nat.lt_succ_of_lt (counted file old)
    · exact Nat.lt_succ_self _
  · intro file listed
    rcases inAll.mp listed with old | rfl
    · rw [other _ (counted file old)]
      exact merged.sound.readable file old
    · refine ⟨_, output, indexable, fun row member => ?_⟩
      exact KeyRange.covers_ofRows ((opts.lsm.rowSort.perm flushed).mem_iff.mp member)
  · intro file listed
    rcases inAll.mp listed with old | rfl
    · exact merged.everyColumn file old
    · exact ⟨rfl, rfl⟩
  · intro file listed row member
    rcases inAll.mp listed with old | rfl
    · exact merged.filters file old row (oldRows file old ▸ member)
    · have inFlushed := (opts.lsm.rowSort.perm flushed).mem_iff.mp (newRows ▸ member)
      rcases filter with rfl | rfl
      · rfl
      · exact TemporalFilter.mayContain_build (mem_map.mpr ⟨row, inFlushed, rfl⟩)
  · have listed : ∀ row, row ∈ after.listedRows ↔
        row ∈ (fileStore zone disk next 0).listedRows ∨ row ∈ rows := by
      intro row
      rw [CompactionStore.listedRows, CompactionStore.listedRows, mem_flatMap, mem_flatMap]
      constructor
      · rintro ⟨file, listed, member⟩
        rcases inAll.mp listed with old | rfl
        · exact Or.inl ⟨file, old, oldRows file old ▸ member⟩
        · exact Or.inr (sorted.mp (newRows ▸ member))
      · rintro (⟨file, old, member⟩ | member)
        · exact ⟨file, inAll.mpr (Or.inl old), (oldRows file old).symm ▸ member⟩
        · exact ⟨_, inAll.mpr (Or.inr rfl), newRows.symm ▸ sorted.mpr member⟩
    intro row
    rw [map_append, flatten_append, map_append, mem_append, ← merged.rows row]
    simp only [mem_map, listed, or_and_right, exists_or, map_cons, map_nil, flatten_cons,
      flatten_nil, append_nil]
  · intro layer member
    rw [isNext]
    rcases mem_append.mp member with old | isLayer
    · obtain ⟨below, written⟩ := merged.written layer old
      rw [other _ below]
      exact ⟨Nat.lt_succ_of_lt below, written⟩
    · rw [mem_singleton.mp isLayer]
      refine ⟨Nat.lt_succ_self _, fun sst found => ?_⟩
      rw [output] at found
      injection found with isFile
      rw [← isFile]
      exact ⟨indexable, fun row inFile => sorted.mp inFile⟩

end Merged

def FileInvariant.merged (opts : CompactionOptions) : FileInvariant opts.lsm :=
  ⟨fun zone disk next => Merged opts (fileStore zone disk next 0),
    fun merged larger => merged.congr rfl (fun _ _ => rfl) larger, merged_install⟩

section Reads

variable {opts : CompactionOptions} {eng : LsmEngine} {layers : Layers} {id : UInt64}
  {col : UInt16}

theorem map_newestAt_sstEntries (stores : Stores (.merged opts) eng layers)
    (strict : layers.fileRows.Pairwise Older) (proper : col ≠ uint16Max) (ts : UInt64) :
    (newestAt time ts.toNat (eng.sstEntries opts.lsm ⟨id, .vertex, col, 0, uint64Max⟩)).map
        Row.descriptor =
      (newestAt time ts.toNat (layers.fileRows.filter (inColumn id col))).map Row.descriptor := by
  have merged : Merged opts (eng.files 0) layers.files := stores.files
  have onDisk : ∀ {file : ZoneSstMeta} {sst : SstFile},
      (eng.files 0).disk file.fileNumber = .complete sst →
      eng.disk file.fileNumber = some sst := by
    intro file sst entry
    rw [← contents_fileStore eng.compactionEngine eng.disk eng.nextFileNumber 0]
    exact congrArg DiskEntry.contents entry
  have inFile : ∀ {file : ZoneSstMeta} {sst : SstFile} {row : Row},
      eng.disk file.fileNumber = some sst → sst.Indexable →
      (row ∈ eng.readFile opts.lsm ⟨id, .vertex, col, 0, uint64Max⟩ file ↔
        inColumn id col row = true ∧ row ∈ sst.rows) := by
    intro file sst row stored indexable
    rw [(readFile_perm stored indexable).mem_iff, mem_filter, accepts_vertex proper, and_comm]
  have inZone : ∀ row, row ∈ ((eng.compactionEngine.getFilesForEntity id col
      EntityType.vertex.toByte).filter (passesTemporalFilter id)).flatMap
        (eng.readFile opts.lsm ⟨id, .vertex, col, 0, uint64Max⟩) ↔
      row ∈ (eng.files 0).listedRows.filter (inColumn id col) := by
    intro row
    rw [mem_flatMap, mem_filter, CompactionStore.listedRows, mem_flatMap]
    constructor
    · rintro ⟨file, member, read⟩
      have listed := mem_of_mem_filter (mem_of_mem_filter member)
      obtain ⟨sst, entry, indexable, -⟩ := merged.sound.readable file listed
      obtain ⟨inGroup, member⟩ := (inFile (onDisk entry) indexable).mp read
      exact ⟨⟨file, listed, by rw [rowsOf, entry]; exact member⟩, inGroup⟩
    · rintro ⟨⟨file, listed, member⟩, inGroup⟩
      have sameEntity := (inColumn_iff.mp inGroup).1
      have column := merged.everyColumn file listed
      obtain ⟨sst, entry, indexable, covered⟩ := merged.sound.readable file listed
      have passes := merged.filters file listed row member
      rw [rowsOf, entry] at member
      have covers := covered row member
      refine ⟨file, mem_filter.mpr ⟨mem_filter.mpr ⟨listed, decide_eq_true
        ⟨Or.inr column.1, Or.inr column.2, ?_⟩⟩, ?_⟩, ?_⟩
      · rw [← sameEntity]
        exact ⟨covers.minEntity, covers.maxEntity⟩
      · rw [← sameEntity]
        exact passes
      · exact (inFile (onDisk entry) indexable).mpr ⟨inGroup, member⟩
  have sameColumn : inColumn id col ∘ Row.merged = inColumn id col := rfl
  have inFiles : ∀ row, row ∈ ((eng.files 0).listedRows.filter (inColumn id col)).map Row.merged ↔
      row ∈ (layers.fileRows.filter (inColumn id col)).map Row.merged := by
    intro row
    rw [← sameColumn, ← filter_map, ← filter_map, mem_filter, mem_filter, merged.rows row]
    rfl
  have sameRows : ∀ row, row ∈ (eng.sstEntries opts.lsm ⟨id, .vertex, col, 0, uint64Max⟩).map
      Row.merged ↔ row ∈ (layers.fileRows.filter (inColumn id col)).map Row.merged := by
    intro row
    rw [← inFiles row, mem_map, mem_map, sstEntries]
    dsimp only
    split
    · -- nothing was found, so no flushed file that is left has a row of the column
      rename_i empty
      have noRows : ∀ found, found ∉ (eng.files 0).listedRows.filter (inColumn id col) := by
        intro found isFound
        have inEntries := (inZone found).mpr isFound
        rw [isEmpty_iff.mp empty] at inEntries
        cases inEntries
      refine iff_of_false ?_ (by simp [noRows])
      rintro ⟨found, member, -⟩
      obtain ⟨file, listed, read⟩ := mem_flatMap.mp member
      have inLevel := mem_of_mem_filter listed
      rw [stores.level0] at inLevel
      obtain ⟨layer, inLayers, rfl⟩ := mem_map.mp inLevel
      cases entry : eng.disk layer.number with
      | none =>
        rw [readFile, show (flushMeta _ _ _ _).fileNumber = layer.number from rfl, entry] at read
        cases read
      | some sst =>
        have written := (merged.written layer inLayers).2 sst
          ((contents_fileStore _ _ _ 0 _).trans entry)
        obtain ⟨inGroup, member⟩ := (inFile entry written.1).mp read
        have inRows := mem_flatten_of_mem (mem_map_of_mem inLayers) (written.2 found member)
        obtain ⟨other, isOther, -⟩ := mem_map.mp ((inFiles found.merged).mpr
          (mem_map_of_mem (mem_filter.mpr ⟨inRows, inGroup⟩)))
        exact noRows other isOther
    · exact exists_congr fun found => and_congr_left fun _ => inZone found
  have same := @map_newestAt_congr _ time ts.toNat _ _ Row.merged time (fun _ => rfl) _ sameRows
    (eq_of_time_eq (increasing_of_older strict id col))
  have descriptors := congrArg (Option.map Row.descriptor) same
  rw [Option.map_map, Option.map_map] at descriptors
  exact descriptors

end Reads

/-! ## Runs with compactions in the background -/

/-- A step of the engine or a compaction. -/
inductive BackgroundOperation (alpha : Type) where
  | engine (op : alpha)
  | executeCompaction (safePoint : UInt64) (task : CompactionTask) (out : CompactionOutcome)

def Recorded.backgroundStep (opts : CompactionOptions) (recorded : Recorded) :
    BackgroundOperation Operation → Recorded
  | .engine op => recorded.step opts.lsm op
  | .executeCompaction safePoint task out =>
    ⟨recorded.engine.executeCompaction opts safePoint task out, recorded.history⟩

/-- The put is newer than every version of its column, in memory and in the files: of two
versions with the same timestamp a merge keeps any one. -/
structure ArrivesNewest (eng : LsmEngine) (row : Row) : Prop extends
    eng.ArrivesInMemory row where
  listed : ∀ ver ∈ (eng.files 0).listedRows, Older ver row

section Runs

variable {opts : CompactionOptions}

section

variable {eng : LsmEngine} {layers : Layers} (stores : Stores (.merged opts) eng layers)
include stores

theorem Stores.filesOlder {row : Row} (newest : eng.ArrivesNewest row) :
    ∀ ver ∈ layers.fileRows, Older ver row := by
  intro ver inFile
  have merged : Merged opts (eng.files 0) layers.files := stores.files
  obtain ⟨copy, listed, same⟩ := mem_map.mp ((merged.rows _).mpr (mem_map_of_mem inFile))
  have older := newest.listed copy listed
  rwa [Older, time, Row.key_eq_of_merged_eq same] at older

theorem Stores.executeCompaction {safePoint : UInt64} {task : CompactionTask}
    {out : CompactionOutcome} (strict : layers.history.Pairwise Older)
    (mergeable : Mergeable opts (eng.files safePoint) task out) :
    Stores (.merged opts) (eng.executeCompaction opts safePoint task out) layers := by
  have merged : Merged opts (eng.files 0) layers.files := stores.files
  exact ⟨stores.mem, stores.imm, stores.accumulated, stores.direct, stores.level0,
    merged.executeCompaction (pairwise_append.mp strict).1 mergeable⟩

theorem Stores.getAtTime_merged (seq : Sequential layers)
    (strict : layers.history.Pairwise Older) (id : UInt64) {col : UInt16}
    (proper : col ≠ uint16Max) (ts : UInt64) :
    eng.getAtTime opts.lsm id .vertex col ts = newestPut layers.history id col ts :=
  getAtTime_of_fileRead stores seq
    (map_newestAt_sstEntries stores (pairwise_append.mp strict).1 proper ts)

end

end Runs

end LsmEngine

end CedarGraph
