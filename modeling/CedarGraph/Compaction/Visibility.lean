import CedarGraph.Compaction.Store

/-!
# What readers see across a compaction

A snapshot read takes the newest version that is neither after its time nor above its snapshot.
A compaction drops old tombstones and sets every transaction version to 0, so versions committed
after a snapshot become visible to it. For reads at or after the safe point, the exact condition
of an invisible compaction is given here.
-/

namespace CedarGraph

open List CompactionEngine DiskEntry CompactionTask ZoneSstMeta LsmEngine

structure VersionQuery where
  entityId : UInt64
  entityType : EntityType
  columnId : UInt16
  time : UInt64
  snapshot : UInt64

def VersionQuery.range (query : VersionQuery) : RangeQuery :=
  ⟨query.entityId, query.entityType, query.columnId, 0, query.time⟩

/-- No row is newer: a larger timestamp, or the same one with a larger transaction
version. -/
structure IsNewestVersion (rows : List Row) (row : Row) : Prop where
  mem : row ∈ rows
  newest : ∀ other ∈ rows, other.key.timestamp < row.key.timestamp ∨
    other.key.timestamp = row.key.timestamp ∧ other.txnVersion ≤ row.txnVersion

instance (rows : List Row) (row : Row) : Decidable (IsNewestVersion rows row) :=
  decidable_of_iff (row ∈ rows ∧ ∀ other ∈ rows, other.key.timestamp < row.key.timestamp ∨
    other.key.timestamp = row.key.timestamp ∧ other.txnVersion ≤ row.txnVersion)
    ⟨fun parts => ⟨parts.1, parts.2⟩, fun newest => ⟨newest.mem, newest.newest⟩⟩

section SafePoint

variable {safePoint ts snapshot : UInt64} {rows left right : List Row} {row : Row}

/-- A read at or after the safe point may return the row: every later version up to the safe
point has a larger transaction version. -/
def Observable (safePoint : UInt64) (rows : List Row) (row : Row) : Prop :=
  ∀ other ∈ rows, row.key.timestamp < other.key.timestamp →
    other.key.timestamp ≤ safePoint → row.txnVersion < other.txnVersion

end SafePoint

/-- The files of a task are for the same column and type; those of a flush are for all. -/
def CompactionTask.Uniform (task : CompactionTask) : Prop :=
  ∃ first ∈ task.inputFiles.head?, ∀ file ∈ task.files,
    file.columnId = first.columnId ∧ file.entityType = first.entityType

namespace CompactionStore

def readFile (opts : CompactionOptions) (store : CompactionStore) (query : RangeQuery)
    (file : ZoneSstMeta) : List Row :=
  match (store.disk file.fileNumber).contents with
  | none => []
  | some sst => sst.reader.getRange opts.lsm.rowSort query

/-- All listed files are readable, their metadata covers their rows, and file numbers
are distinct and below the counter. -/
structure Sound (opts : CompactionOptions) (store : CompactionStore) : Prop where
  length : store.engine.levels.length = opts.config.maxLevels
  unique : store.engine.levels.Unique
  counted : ∀ file ∈ store.engine.levels.all, file.fileNumber < store.nextFileNumber
  readable : ∀ file ∈ store.engine.levels.all, ∃ sst,
    store.disk file.fileNumber = .complete sst ∧ sst.Indexable ∧
    ∀ row ∈ sst.rows, file.range.Covers row.key

/-- The stored versions of the column of the query in some files. -/
def versionsIn (store : CompactionStore) (files : List ZoneSstMeta)
    (query : VersionQuery) : List Row :=
  ((files.filter (fileMatches query.entityId query.columnId query.entityType.toByte)).flatMap
    fun file => store.rowsOf file.fileNumber).filter
      (RangeQuery.accepts ⟨query.entityId, query.entityType, query.columnId, 0, uint64Max⟩)

def listedRows (store : CompactionStore) : List Row :=
  store.engine.levels.all.flatMap fun file => store.rowsOf file.fileNumber

def taskRows (store : CompactionStore) (task : CompactionTask) : List Row :=
  task.files.flatMap fun file => store.rowsOf file.fileNumber

def otherFiles (store : CompactionStore) (task : CompactionTask) : List ZoneSstMeta :=
  store.engine.levels.all.filter fun file =>
    decide (file.fileNumber ∉ task.files.map fileNumber)

def Keeps (opts : CompactionOptions) (store : CompactionStore) (task : CompactionTask)
    (row : Row) : Prop :=
  shouldDropTombstone opts.config store.gcSafePoint task.outputLevel row.key = false

instance (opts : CompactionOptions) (store : CompactionStore) (task : CompactionTask)
    (row : Row) : Decidable (store.Keeps opts task row) :=
  inferInstanceAs (Decidable (_ = _))

/-- Rows of the task with one logical key are copies. -/
def Agrees (store : CompactionStore) (task : CompactionTask) : Prop :=
  ∀ left ∈ store.taskRows task, ∀ right ∈ store.taskRows task,
    left.repeats right = true → left.merged = right.merged

/-- No read of the column at or after the safe point notices the task.  A version that such a
read may return is still there: in another file, or kept and of transaction version 0.  A version
that is written with transaction version 0 was there, or a later one of this kind hides it. -/
def Unnoticed (opts : CompactionOptions) (store : CompactionStore) (task : CompactionTask)
    (query : VersionQuery) : Prop :=
  (∀ row ∈ store.versionsIn task.files query,
    Observable store.gcSafePoint (store.versionsIn store.engine.levels.all query) row →
      row ∈ store.versionsIn (store.otherFiles task) query ∨
        row.txnVersion = 0 ∧ store.Keeps opts task row) ∧
  ∀ row ∈ store.versionsIn task.files query, store.Keeps opts task row →
    row.merged ∈ store.versionsIn store.engine.levels.all query ∨
      ∃ other, row.key.timestamp < other.key.timestamp ∧
        other.key.timestamp ≤ store.gcSafePoint ∧
        (other ∈ store.versionsIn (store.otherFiles task) query ∧ other.txnVersion = 0 ∨
          other ∈ store.versionsIn task.files query ∧ store.Keeps opts task other)

/-- A task without a row to keep changes nothing; any other one is unnoticed in every column. -/
def Harmless (opts : CompactionOptions) (store : CompactionStore) (task : CompactionTask) : Prop :=
  (∀ row ∈ store.taskRows task, ¬ store.Keeps opts task row) ∨
    ∀ query, store.Unnoticed opts task query

section Reads

variable {opts : CompactionOptions} {store : CompactionStore} {query : VersionQuery} {row : Row}
  {task : CompactionTask} {out : CompactionOutcome}

theorem Sound.covers (sound : store.Sound opts) {file : ZoneSstMeta}
    (listed : file ∈ store.engine.levels.all) (member : row ∈ store.rowsOf file.fileNumber) :
    file.range.Covers row.key := by
  obtain ⟨sst, entry, -, covered⟩ := sound.readable file listed
  rw [rowsOf, entry] at member
  exact covered row member

section Task

variable (sound : store.Sound opts) (lists : store.Lists task)

variable (uniform : task.Uniform) (agrees : store.Agrees task)
  (opened : ∀ file ∈ task.files, out.opens file.fileNumber = true)

include agrees opened in
theorem mem_compactedFile_iff :
    row ∈ (store.compactedFile opts task out).rows ↔
      ∃ source ∈ store.taskRows task, store.Keeps opts task source ∧ row = source.merged := by
  have read : ∀ row, row ∈ (store.openStreams out.opens task.allInputs).flatten ↔
      row ∈ store.taskRows task := by
    intro row
    rw [mem_openStreams_allInputs_iff, taskRows, mem_flatMap]
    exact exists_congr fun file => and_congr_right fun member =>
      and_iff_right (opened file member)
  rw [compactedFile, mem_mergeZones_iff]
  · exact exists_congr fun source => and_congr_left fun _ => read source
  · intro left leftMember right rightMember
    exact agrees left ((read left).mp leftMember) right ((read right).mp rightMember)

theorem exists_of_mem_compactedFile (member : row ∈ (store.compactedFile opts task out).rows) :
    ∃ file ∈ task.files, ∃ source ∈ store.rowsOf file.fileNumber, row = source.merged := by
  obtain ⟨source, read, rfl⟩ := exists_of_mem_mergeZones member
  obtain ⟨file, inTask, -, inFile⟩ := mem_openStreams_allInputs_iff.mp read
  exact ⟨file, inTask, source, inFile, rfl⟩

include uniform in
theorem fileMatches_outputMeta {file : ZoneSstMeta} (member : file ∈ task.files)
    {key : CedarKey} (covered : file.range.Covers key) (number : Nat) (sst : SstFile) :
    (task.outputMeta opts number sst).range.Covers key ∧ ∀ col entityType,
      fileMatches key.entityId col entityType (task.outputMeta opts number sst) =
        fileMatches key.entityId col entityType file := by
  obtain ⟨first, isFirst, uniform⟩ := uniform
  have all := KeyRange.covers_ofFiles member covered
  have range : (task.outputMeta opts number sst).range = KeyRange.ofFiles task.files := by
    rw [outputMeta, isFirst]
    rfl
  have column : (task.outputMeta opts number sst).columnId = file.columnId := by
    rw [outputMeta, isFirst]
    exact (uniform file member).1.symm
  have kind : (task.outputMeta opts number sst).entityType = file.entityType := by
    rw [outputMeta, isFirst]
    exact (uniform file member).2.symm
  rw [range]
  refine ⟨all, fun col entityType => ?_⟩
  rw [fileMatches, fileMatches, decide_eq_decide, range, column, kind]
  exact and_congr_right fun _ => and_congr_right fun _ =>
    iff_of_true ⟨all.minEntity, all.maxEntity⟩ ⟨covered.minEntity, covered.maxEntity⟩

section Updated

variable {after : CompactionStore} (updated : store.Updated opts after task out)
  (small : SstFile.Small (store.taskRows task))
include updated sound lists

include uniform small in
theorem Updated.isSound : after.Sound opts := by
  have isNew : ∀ file ∈ store.engine.levels.files task.outputLevel, file.fileNumber ≠
      (task.outputMeta opts store.nextFileNumber (store.compactedFile opts task out)).fileNumber :=
    fun file listed => Nat.ne_of_lt (sound.counted file (Levels.mem_all_of_mem_files listed))
  refine ⟨?_, ?_, ?_, ?_⟩
  · rw [updated.levels]
    exact length_moveMetadata.trans sound.length
  · rw [updated.levels]
    refine sound.unique.add (distinct_moveMetadata lists.inside sound.unique.distinct isNew)
      task.outputLevel (fun file listed => Nat.ne_of_lt (sound.counted file listed)) ?_
    intro level file listed
    exact ((mem_files_moveMetadata lists.inside sound.unique.distinct isNew).mp listed).1.imp_right
      fun ⟨atOutput, isOutput⟩ => ⟨atOutput, by rw [isOutput]; rfl⟩
  · intro file listed
    rw [updated.next]
    rcases (updated.mem_all_iff lists).mp listed with ⟨old, -⟩ | rfl
    · exact Nat.lt_succ_of_lt (sound.counted file old)
    · exact Nat.lt_succ_self _
  · intro file listed
    rcases (updated.mem_all_iff lists).mp listed with ⟨old, kept⟩ | rfl
    · rw [updated.disk_other kept, disk_moved (sound.counted file old)]
      exact sound.readable file old
    · refine ⟨_, (updated.disk_other lists.output_not_mem).trans disk_moved_output, ?_, ?_⟩
      · apply SstFile.indexable_forLevel
        refine small.of_keys ((length_mergeZones_le _ _ _ _).trans
          (length_openStreams_le store out.opens task)) fun row member => ?_
        obtain ⟨file, inTask, source, inFile, rfl⟩ := exists_of_mem_compactedFile member
        exact ⟨source, mem_flatMap.mpr ⟨file, inTask, inFile⟩, rfl⟩
      · intro row member
        obtain ⟨file, inTask, source, inFile, rfl⟩ := exists_of_mem_compactedFile member
        exact (fileMatches_outputMeta uniform inTask
          (sound.covers (lists.mem_all inTask) inFile) _ _).1

include agrees opened

/-- When no row of the task is dropped, a compaction changes nothing but transaction versions. -/
theorem Updated.merged_listedRows
    (keeps : ∀ row ∈ store.taskRows task, store.Keeps opts task row) :
    row ∈ after.listedRows.map Row.merged ↔ row ∈ store.listedRows.map Row.merged := by
  have inFile := fun {row : Row} => @mem_compactedFile_iff opts store row task out agrees opened
  simp only [listedRows, mem_map, mem_flatMap]
  constructor
  · rintro ⟨found, ⟨file, listed, member⟩, rfl⟩
    rcases (updated.mem_all_iff lists).mp listed with ⟨old, kept⟩ | rfl
    · rw [updated.rowsOf_other (sound.counted file old) kept] at member
      exact ⟨found, ⟨file, old, member⟩, rfl⟩
    · obtain ⟨source, inTask, -, rfl⟩ := inFile.mp (updated.rowsOf_output lists ▸ member)
      obtain ⟨file, isTask, inSource⟩ := mem_flatMap.mp inTask
      exact ⟨source, ⟨file, lists.mem_all isTask, inSource⟩, rfl⟩
  · rintro ⟨source, ⟨file, listed, member⟩, rfl⟩
    by_cases inTask : file.fileNumber ∈ task.files.map fileNumber
    · obtain ⟨other, isTask, same⟩ := mem_map.mp inTask
      have inRows : source ∈ store.taskRows task := mem_flatMap.mpr ⟨other, isTask, same ▸ member⟩
      refine ⟨source.merged, ⟨_, (updated.mem_all_iff lists).mpr (Or.inr rfl), ?_⟩, rfl⟩
      exact updated.rowsOf_output lists ▸ inFile.mpr ⟨source, inRows, keeps source inRows, rfl⟩
    · refine ⟨source, ⟨file, (updated.mem_all_iff lists).mpr (Or.inl ⟨listed, inTask⟩), ?_⟩, rfl⟩
      rw [updated.rowsOf_other (sound.counted file listed) inTask]
      exact member

end Updated

end Task

end Reads

end CompactionStore

end CedarGraph
