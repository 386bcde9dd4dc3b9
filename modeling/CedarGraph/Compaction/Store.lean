import CedarGraph.Compaction.Merge

/-!
# The compaction engine with its directory

A `CompactionStore` is the engine with the files on disk, the saved manifest, the counter for
file numbers and the unfinished tasks. Whether a file can be created, opened, completed or
removed is an argument of a step. File numbers are below the counter, so the directory is listed
up to it.
-/

namespace CedarGraph

open Function List Levels CompactionEngine ZoneSstMeta

inductive DiskEntry where
  | absent
  | incomplete
  | complete (file : SstFile)
  deriving DecidableEq, Repr

def DiskEntry.contents : DiskEntry → Option SstFile
  | .complete file => some file
  | _ => none

theorem DiskEntry.eq_complete_of_contents {entry : DiskEntry} {file : SstFile}
    (contents : entry.contents = some file) : entry = .complete file := by
  cases entry with
  | absent => cases contents
  | incomplete => cases contents
  | complete other =>
    injection contents with same
    rw [same]

inductive FileWrite where
  | notCreated (status : Status)
  | incomplete (status : Status)
  | complete
  deriving DecidableEq, Repr

inductive ManifestWrite where
  | notOpened
  | notRenamed
  | saved
  deriving DecidableEq, Repr

def ManifestWrite.status : ManifestWrite → Except Status Unit
  | .notOpened => .error (.ioError "SizeTieredCompactionEngine" "Cannot open manifest for writing")
  | .notRenamed => .error (.ioError "SizeTieredCompactionEngine" "Failed to rename manifest")
  | .saved => .ok ()

structure CompactionOutcome where
  opens : Nat → Bool
  output : FileWrite
  manifest : ManifestWrite
  removes : Nat → Bool

def CompactionOutcome.success : CompactionOutcome :=
  ⟨fun _ => true, .complete, .saved, fun _ => true⟩

structure CompactionStore where
  engine : CompactionEngine
  disk : Nat → DiskEntry
  manifest : Option Levels
  nextFileNumber : Nat
  gcSafePoint : UInt64
  unfinished : List CompactionTask

/-- The metadata that `SaveManifest` writes: the temporal filter is not part of it. -/
def Levels.persisted (levels : Levels) : Levels :=
  levels.map fun files => files.map fun file => { file with temporalFilter := none }

/-- `RemoveFileMetadataOnly` removes the reference to the file's own blob file, but
not those to the blob files that its rows refer to. -/
def CompactionEngine.removeFileMetadataOnly (eng : CompactionEngine) (level number : Nat) :
    CompactionEngine :=
  let files := eng.levels.files level
  match files.find? fun file => decide (file.fileNumber = number) with
  | none => eng
  | some file =>
    { eng with
      levels := eng.levels.setFiles level
        (files.eraseP fun file => decide (file.fileNumber = number))
      blobReferences :=
        if file.blobFileNumber ≠ 0 then
          eng.blobReferences.removeReference file.blobFileNumber number
        else eng.blobReferences }

variable (task : CompactionTask)

namespace CompactionTask

/-- The files to merge, each number once. -/
def allInputs : List ZoneSstMeta :=
  task.overlappingFiles.foldl
    (fun all file =>
      if all.any fun existing => decide (existing.fileNumber = file.fileNumber) then all
      else all ++ [file])
    task.inputFiles

/-- The metadata of the output: it carries no blob references. -/
def outputMeta (opts : CompactionOptions) (task : CompactionTask) (number : Nat)
    (file : SstFile) : ZoneSstMeta :=
  let first := task.inputFiles.head?
  { fileNumber := number
    fileSize := opts.lsm.sstFileSize file
    numEntries := file.rows.length
    level := task.outputLevel
    range := if first.isSome then KeyRange.ofFiles task.files else KeyRange.zero
    columnId := (first.map columnId).getD 0
    entityType := (first.map entityType).getD 0
    blobFileNumber := 0
    referencedBlobFiles := []
    temporalFilter := none }

def pushOutput (output : ZoneSstMeta) (eng : CompactionEngine) : CompactionEngine :=
  { eng with
    levels := eng.levels.setFiles task.outputLevel (eng.levels.files task.outputLevel ++ [output]) }

/-- The metadata update: the output is added before inputs and overlaps are removed. -/
def moveMetadata (output : ZoneSstMeta) (eng : CompactionEngine) : CompactionEngine :=
  let cleared := (task.inputFiles.map fileNumber).foldl
    (fun cur => cur.removeFileMetadataOnly task.inputLevel)
    (task.pushOutput output eng)
  (task.overlappingFiles.map fileNumber).foldl
    (fun cur => cur.removeFileMetadataOnly task.outputLevel) cleared

end CompactionTask

namespace CompactionStore

def init (opts : CompactionOptions) (gcSafePoint : UInt64) : CompactionStore :=
  { engine := .init opts.config
    disk := fun _ => .absent
    manifest := none
    nextFileNumber := 1
    gcSafePoint := gcSafePoint
    unfinished := [] }

section Steps

variable (opts : CompactionOptions) (store : CompactionStore)

def rowsOf (number : Nat) : List Row :=
  ((store.disk number).contents.map SstFile.rows).getD []

/-- The rows of the files that can be opened; a file without rows is left out. -/
def openStreams (opens : Nat → Bool) (files : List ZoneSstMeta) : List (List Row) :=
  (files.filterMap fun file =>
    if opens file.fileNumber then
      (store.disk file.fileNumber).contents.map SstFile.rows
    else none).filter fun rows => !rows.isEmpty

def saveManifest (write : ManifestWrite) : CompactionStore × Except Status Unit :=
  match write with
  | .saved => ({ store with manifest := some store.engine.levels.persisted }, .ok ())
  | failed => (store, failed.status)

/-- Remove those of the files that the environment lets go of. -/
def removeFiles (removes : Nat → Bool) (numbers : List Nat) : CompactionStore :=
  { store with
    disk := fun number =>
      if number ∈ numbers ∧ removes number = true then .absent else store.disk number }

def compactedFile (task : CompactionTask) (out : CompactionOutcome) : SstFile :=
  ⟨.forLevel task.outputLevel,
    mergeZones opts store.gcSafePoint task.outputLevel (store.openStreams out.opens task.allInputs)⟩

def doZoneCompaction (task : CompactionTask) (out : CompactionOutcome) :
    CompactionStore × Except Status Unit :=
  let number := store.nextFileNumber
  let numbered := { store with nextFileNumber := number + 1 }
  match out.output with
  | .notCreated status => (numbered, .error status)
  | .incomplete status =>
    ({ numbered with disk := update store.disk number .incomplete }, .error status)
  | .complete =>
    let file := store.compactedFile opts task out
    let written := { numbered with
      disk := update store.disk number (.complete file) }
    if file.rows.isEmpty || decide (opts.lsm.sstFileSize file < 64) then
      (written.removeFiles out.removes [number], .ok ())
    else
      let output := task.outputMeta opts number file
      let moved := { written with engine := task.moveMetadata output store.engine }
      match moved.saveManifest out.manifest with
      | (kept, .error status) => (kept, .error status)
      | (saved, .ok ()) =>
        (saved.removeFiles out.removes (task.files.map fileNumber), .ok ())

def executeCompaction (task : CompactionTask) (out : CompactionOutcome) :
    CompactionStore × Except Status Unit :=
  let marked := { store with engine := store.engine.mark task.files }
  let done := marked.doZoneCompaction opts task out
  ({ done.1 with engine := done.1.engine.unmark task.files }, done.2)

def execute (pos : Nat) (out : CompactionOutcome) : CompactionStore :=
  match store.unfinished[pos]? with
  | none => store
  | some task =>
    ({ store with unfinished := store.unfinished.eraseIdx pos }.executeCompaction opts task out).1

def choose (choice : CompactionEngine × Option CompactionTask) : CompactionStore :=
  { store with engine := choice.1, unfinished := store.unfinished ++ choice.2.toList }

def pickNextCompaction : CompactionStore :=
  store.choose (store.engine.pickNextCompaction opts.config opts.sizeSort)

def scheduleCompaction : CompactionStore :=
  store.choose (store.engine.scheduleCompaction opts.config opts.sizeSort)

def addSSTFile (file : ZoneSstMeta) : CompactionStore :=
  store.choose (store.engine.addSSTFileAndSchedule opts.config opts.sizeSort file)

def flush (rows : List Row) (temporalFilter : Option FixedWidth.Bytes) (write : FileWrite) :
    CompactionStore :=
  let number := store.nextFileNumber
  let numbered := { store with nextFileNumber := number + 1 }
  if rows.isEmpty then store
  else
    match write with
    | .notCreated _ => numbered
    | .incomplete _ => { numbered with disk := update store.disk number .incomplete }
    | .complete =>
      { numbered with
        disk := update store.disk number
          (.complete ⟨.default, opts.lsm.rowSort.sort rows⟩) }.addSSTFile opts
        (LsmEngine.flushMeta opts.lsm number rows temporalFilter)

/-- `LoadManifest`: the levels are replaced, the blob references are added to those
that the engine has. -/
def loadManifest : CompactionStore :=
  match store.manifest with
  | none => store
  | some levels =>
    { store with
      engine := { store.engine with
        levels := levels
        blobReferences := levels.all.foldl BlobReferences.register store.engine.blobReferences } }

/-- What happens when the database is closed and opened again: whether the manifest
is saved, the memtables that `Close` flushes once the compaction engine is gone, the
incomplete files below 64 bytes, and the files that open. -/
structure Reopening where
  manifest : ManifestWrite
  lateFlushes : List (List Row)
  small : Nat → Bool
  opens : Nat → Bool

def writeUnlisted (rows : List Row) : CompactionStore :=
  { store with
    disk := update store.disk store.nextFileNumber
      (.complete ⟨.default, opts.lsm.rowSort.sort rows⟩)
    nextFileNumber := store.nextFileNumber + 1 }

def close (reopening : Reopening) : CompactionStore :=
  reopening.lateFlushes.foldl (fun cur rows => cur.writeUnlisted opts rows)
    (store.saveManifest reopening.manifest).1

def listedNumbers : List Nat :=
  opts.listing ((List.range store.nextFileNumber).filter fun number =>
    decide (store.disk number ≠ DiskEntry.absent))

/-- `LoadSstFiles` removes small files and sets the counter. -/
def loadSstFiles (small : Nat → Bool) : CompactionStore :=
  let cleaned := { store with
    disk := fun number =>
      if store.disk number = DiskEntry.incomplete ∧ small number = true then .absent
      else store.disk number }
  { cleaned with
    nextFileNumber :=
      (cleaned.listedNumbers opts).foldl (fun next number => max next (number + 1)) 1 }

/-- A new compaction engine on the directory: nothing is in progress, and the levels
are those of the manifest. -/
def restart (small : Nat → Bool) : CompactionStore :=
  { store.loadSstFiles opts small with
    engine := .init opts.config, unfinished := [] }.loadManifest

/-- The metadata that `MigrateExistingSstFiles` makes from an opened file. -/
def migratedMeta (number : Nat) (file : SstFile) : ZoneSstMeta :=
  { fileNumber := number
    fileSize := opts.lsm.sstFileSize file
    numEntries := file.rows.length
    level := 0
    range := KeyRange.ofRows file.rows
    columnId := uint16Max
    entityType := 0
    blobFileNumber := 0
    referencedBlobFiles := []
    temporalFilter :=
      if file.rows.isEmpty then none else LsmEngine.temporalFilterOf file.rows }

def migrateFile (opens : Nat → Bool) (number : Nat) : CompactionStore :=
  match (store.disk number).contents with
  | none => store
  | some file =>
    if opens number then store.addSSTFile opts (migratedMeta opts number file) else store

def migrateExistingSstFiles (opens : Nat → Bool) : CompactionStore :=
  (store.listedNumbers opts).foldl (fun cur number => cur.migrateFile opts opens number) store

/-- `Close` and `Open`: every file of the directory that opens is added to level 0. -/
def reopen (reopening : Reopening) : CompactionStore :=
  ((store.close opts reopening).restart opts reopening.small).migrateExistingSstFiles
    opts reopening.opens

end Steps

end CompactionStore

/-! ## What the metadata update does -/

def Levels.Distinct (levels : Levels) : Prop :=
  ∀ level, ((levels.files level).map fileNumber).Nodup

/-- Every file number occurs at most once, in at most one level. -/
structure Levels.Unique (levels : Levels) : Prop where
  distinct : levels.Distinct
  oneLevel : ∀ left right, ∀ file ∈ levels.files left, ∀ other ∈ levels.files right,
    file.fileNumber = other.fileNumber → left = right

theorem Levels.Unique.add {levels later : Levels} (unique : levels.Unique)
    (distinct : later.Distinct) (place : Nat) {number : Nat}
    (isNew : ∀ file ∈ levels.all, file.fileNumber ≠ number)
    (only : ∀ {level file}, file ∈ later.files level →
      file ∈ levels.files level ∨ level = place ∧ file.fileNumber = number) : later.Unique := by
  refine ⟨distinct, ?_⟩
  intro left right file inLeft other inRight same
  rcases only inLeft with oldLeft | ⟨atLeft, newLeft⟩
  · rcases only inRight with oldRight | ⟨-, newRight⟩
    · exact unique.oneLevel left right file oldLeft other oldRight same
    · exact absurd (same.trans newRight) (isNew file (mem_all_of_mem_files oldLeft))
  · rcases only inRight with oldRight | ⟨atRight, -⟩
    · exact absurd (same.symm.trans newLeft) (isNew other (mem_all_of_mem_files oldRight))
    · rw [atLeft, atRight]

theorem Levels.unique_of_nodup
    {levels : Levels} (nodup : (levels.all.map fileNumber).Nodup) : levels.Unique := by
  induction levels with
  | nil =>
    refine ⟨fun level => nodup_nil, ?_⟩
    intro left right file mem
    cases mem
  | cons first rest ih =>
    rw [all, flatten_cons, map_append, nodup_append] at nodup
    obtain ⟨firstNodup, restNodup, disjoint⟩ := nodup
    have unique : Unique rest := ih restNodup
    have apart : ∀ {level : Nat}, ∀ file ∈ first, ∀ other ∈ files rest level,
        file.fileNumber ≠ other.fileNumber := by
      intro level file inFirst other inRest
      exact disjoint _ (mem_map_of_mem inFirst) _ (mem_map_of_mem (mem_all_of_mem_files inRest))
    refine ⟨?_, ?_⟩
    · intro level
      cases level with
      | zero => exact firstNodup
      | succ level => exact unique.distinct level
    · intro left right file mem other otherMember same
      cases left with
      | zero =>
        cases right with
        | zero => rfl
        | succ right => exact absurd same (apart file mem other otherMember)
      | succ left =>
        cases right with
        | zero => exact absurd same.symm (apart other otherMember file mem)
        | succ right =>
          exact congrArg Nat.succ (unique.oneLevel left right file mem other otherMember same)

theorem eraseP_eq_filter {files : List ZoneSstMeta} (distinct : (files.map fileNumber).Nodup)
    (number : Nat) :
    (files.eraseP fun file => decide (file.fileNumber = number)) =
      files.filter fun file => decide (file.fileNumber ≠ number) := by
  induction files with
  | nil => rfl
  | cons first rest ih =>
    rw [map_cons, nodup_cons] at distinct
    by_cases same : first.fileNumber = number
    · have others : rest.filter (fun file => decide (file.fileNumber ≠ number)) = rest := by
        refine filter_eq_self.mpr ?_
        intro file mem
        refine decide_eq_true ?_
        intro equal
        apply distinct.1
        rw [same, ← equal]
        exact mem_map_of_mem mem
      rw [eraseP_cons_of_pos (by simpa using same),
        filter_cons_of_neg (by simpa using same), others]
    · rw [eraseP_cons_of_neg (by simpa using same),
        filter_cons_of_pos (by simpa using same), ih distinct.2]

namespace CompactionEngine

theorem files_removeFileMetadataOnly (eng : CompactionEngine) (level number other : Nat) :
    (eng.removeFileMetadataOnly level number).levels.files other =
      if other = level then
        (eng.levels.files level).eraseP fun file => decide (file.fileNumber = number)
      else eng.levels.files other := by
  rw [removeFileMetadataOnly]
  split
  · rename_i missing
    have unchanged : ((eng.levels.files level).eraseP
        fun file => decide (file.fileNumber = number)) = eng.levels.files level :=
      eraseP_of_forall_not (find?_eq_none.mp missing)
    rw [unchanged]
    split
    · rename_i same
      rw [same]
    · rfl
  · rename_i file found
    have lt : level < eng.levels.length := by
      by_contra outside
      rw [files_eq_nil (Nat.le_of_not_lt outside)] at found
      cases found
    exact files_setFiles lt _ other

theorem length_removeFileMetadataOnly (eng : CompactionEngine) (level number : Nat) :
    (eng.removeFileMetadataOnly level number).levels.length = eng.levels.length := by
  rw [removeFileMetadataOnly]
  split
  · rfl
  · exact length_set

variable {eng : CompactionEngine}

section

variable (distinct : eng.levels.Distinct)
include distinct

theorem distinct_removeFileMetadataOnly (level number : Nat) :
    (eng.removeFileMetadataOnly level number).levels.Distinct := by
  intro other
  rw [files_removeFileMetadataOnly]
  split
  · exact (distinct level).sublist (eraseP_sublist.map _)
  · exact distinct other

theorem files_foldl_remove (level : Nat) (numbers : List Nat) (other : Nat) :
    (numbers.foldl (fun cur => cur.removeFileMetadataOnly level) eng).levels.files other =
      if other = level then
        (eng.levels.files level).filter fun file => decide (file.fileNumber ∉ numbers)
      else eng.levels.files other := by
  induction numbers generalizing eng with
  | nil =>
    rw [foldl_nil]
    split
    · rename_i same
      simp [same]
    · rfl
  | cons head tail ih =>
    rw [foldl_cons, ih (distinct_removeFileMetadataOnly distinct level head),
      files_removeFileMetadataOnly, files_removeFileMetadataOnly, if_pos rfl]
    split
    · rw [eraseP_eq_filter (distinct level), filter_filter]
      apply filter_congr
      intro file _
      simp [Bool.and_comm]
    · rfl

theorem distinct_foldl_remove (level : Nat) (numbers : List Nat) :
    (numbers.foldl (fun cur => cur.removeFileMetadataOnly level) eng).levels.Distinct := by
  induction numbers generalizing eng with
  | nil => exact distinct
  | cons head tail ih => exact ih (distinct_removeFileMetadataOnly distinct level head)

end

theorem length_foldl_remove (eng : CompactionEngine) (level : Nat) (numbers : List Nat) :
    (numbers.foldl (fun cur => cur.removeFileMetadataOnly level)
      eng).levels.length = eng.levels.length := by
  induction numbers generalizing eng with
  | nil => rfl
  | cons head tail ih => rw [foldl_cons, ih, length_removeFileMetadataOnly]

end CompactionEngine

namespace CompactionTask

section MoveMetadata

variable {task : CompactionTask} {output : ZoneSstMeta} {eng : CompactionEngine}

section

variable (lt : task.outputLevel < eng.levels.length)
include lt

theorem files_pushOutput (level : Nat) :
    (task.pushOutput output eng).levels.files level =
      eng.levels.files level ++ if level = task.outputLevel then [output] else [] := by
  rw [pushOutput, files_setFiles lt]
  split
  · rename_i same
    rw [same]
  · rw [append_nil]

theorem distinct_pushOutput (distinct : eng.levels.Distinct)
    (isNew : ∀ file ∈ eng.levels.files task.outputLevel,
      file.fileNumber ≠ output.fileNumber) : (task.pushOutput output eng).levels.Distinct := by
  intro level
  rw [files_pushOutput lt]
  split
  · rename_i same
    rw [same, map_append, map_singleton, ← concat_eq_append]
    refine List.Nodup.concat ?_ (distinct task.outputLevel)
    intro listed
    obtain ⟨file, mem, sameNumber⟩ := mem_map.mp listed
    exact isNew file mem sameNumber
  · rw [append_nil]
    exact distinct level

theorem distinct_moveMetadata (distinct : eng.levels.Distinct)
    (isNew : ∀ file ∈ eng.levels.files task.outputLevel,
      file.fileNumber ≠ output.fileNumber) : (task.moveMetadata output eng).levels.Distinct := by
  apply distinct_foldl_remove
  apply distinct_foldl_remove
  exact distinct_pushOutput lt distinct isNew

end

theorem length_moveMetadata : (task.moveMetadata output eng).levels.length = eng.levels.length := by
  rw [moveMetadata, length_foldl_remove, length_foldl_remove]
  exact length_set

theorem mem_files_moveMetadata
    (lt : task.outputLevel < eng.levels.length) (distinct : eng.levels.Distinct)
    (isNew : ∀ file ∈ eng.levels.files task.outputLevel, file.fileNumber ≠ output.fileNumber)
    {level : Nat} {file : ZoneSstMeta} :
    file ∈ (task.moveMetadata output eng).levels.files level ↔
      (file ∈ eng.levels.files level ∨ level = task.outputLevel ∧ file = output) ∧
      (level = task.inputLevel → file.fileNumber ∉ task.inputFiles.map fileNumber) ∧
      (level = task.outputLevel → file.fileNumber ∉ task.overlappingFiles.map fileNumber) := by
  have pushedDistinct := distinct_pushOutput lt distinct isNew
  have clearedDistinct := distinct_foldl_remove pushedDistinct task.inputLevel
    (task.inputFiles.map fileNumber)
  have pushed : file ∈ (task.pushOutput output eng).levels.files level ↔
      file ∈ eng.levels.files level ∨ level = task.outputLevel ∧ file = output := by
    rw [files_pushOutput lt, mem_append]
    split
    · rename_i same
      simp [same]
    · rename_i ne
      simp [ne]
  have cleared : ∀ {level}, file ∈ ((task.inputFiles.map fileNumber).foldl
      (fun cur => cur.removeFileMetadataOnly task.inputLevel)
      (task.pushOutput output eng)).levels.files level ↔
      file ∈ (task.pushOutput output eng).levels.files level ∧
      (level = task.inputLevel → file.fileNumber ∉ task.inputFiles.map fileNumber) := by
    intro level
    rw [files_foldl_remove pushedDistinct]
    split
    · rename_i same
      rw [mem_filter, decide_eq_true_eq, same]
      tauto
    · tauto
  rw [← pushed, moveMetadata, files_foldl_remove clearedDistinct]
  split
  · rename_i same
    rw [mem_filter, decide_eq_true_eq, cleared, same]
    tauto
  · rw [cleared]
    tauto

end MoveMetadata

end CompactionTask

/-! ## The rows that a compaction reads -/

namespace CompactionTask

theorem allInputs_spec :
    task.allInputs.Sublist task.files ∧
      ∀ file ∈ task.files, ∃ other ∈ task.allInputs, other.fileNumber = file.fileNumber := by
  have fold : ∀ (overlapping all : List ZoneSstMeta), (overlapping.foldl (fun all file =>
        if all.any fun existing => decide (existing.fileNumber = file.fileNumber) then all
        else all ++ [file]) all).Sublist (all ++ overlapping) ∧
      ∀ file ∈ all ++ overlapping, ∃ other ∈ overlapping.foldl (fun all file =>
        if all.any fun existing => decide (existing.fileNumber = file.fileNumber) then all
        else all ++ [file]) all, other.fileNumber = file.fileNumber := by
    intro overlapping
    induction overlapping with
    | nil =>
      intro all
      rw [append_nil]
      exact ⟨List.Sublist.refl _, fun file mem => ⟨file, mem, rfl⟩⟩
    | cons head tail ih =>
      intro all
      rw [foldl_cons]
      split
      · rename_i listed
        obtain ⟨sublist, covered⟩ := ih all
        refine ⟨sublist.trans (sublist_append_right [head] tail |>.append_left all), ?_⟩
        intro file mem
        rcases mem_append.mp mem with inAll | inRest
        · exact covered file (mem_append_left _ inAll)
        · rcases mem_cons.mp inRest with rfl | inTail
          · obtain ⟨existing, existingMember, same⟩ := any_eq_true.mp listed
            obtain ⟨other, otherMember, otherSame⟩ :=
              covered existing (mem_append_left _ existingMember)
            exact ⟨other, otherMember, otherSame.trans (of_decide_eq_true same)⟩
          · exact covered file (mem_append_right _ inTail)
      · have step := ih (all ++ [head])
        rw [append_assoc, singleton_append] at step
        exact step
  exact fold task.overlappingFiles task.inputFiles

end CompactionTask

namespace CompactionStore

theorem mem_openStreams_flatten_iff
    {store : CompactionStore} {opens : Nat → Bool} {files : List ZoneSstMeta} {row : Row} :
    row ∈ (store.openStreams opens files).flatten ↔
      ∃ file ∈ files, opens file.fileNumber = true ∧ row ∈ store.rowsOf file.fileNumber := by
  rw [mem_flatten]
  constructor
  · intro found
    obtain ⟨rows, streamMember, mem⟩ := found
    obtain ⟨file, fileMember, opened⟩ :=
      mem_filterMap.mp (mem_of_mem_filter streamMember)
    by_cases opening : opens file.fileNumber = true
    · rw [if_pos opening] at opened
      refine ⟨file, fileMember, opening, ?_⟩
      rw [rowsOf, opened]
      exact mem
    · rw [if_neg opening] at opened
      cases opened
  · intro found
    obtain ⟨file, fileMember, opening, mem⟩ := found
    cases contents : (store.disk file.fileNumber).contents with
    | none =>
      rw [rowsOf, contents] at mem
      cases mem
    | some sst =>
      rw [rowsOf, contents] at mem
      have inRows : row ∈ sst.rows := mem
      refine ⟨sst.rows, mem_filter.mpr ⟨mem_filterMap.mpr ⟨file, fileMember, ?_⟩, ?_⟩, inRows⟩
      · rw [if_pos opening, contents]
        rfl
      · simpa using ne_nil_of_mem inRows

theorem mem_openStreams_allInputs_iff
    {store : CompactionStore} {opens : Nat → Bool} {task : CompactionTask} {row : Row} :
    row ∈ (store.openStreams opens task.allInputs).flatten ↔
      ∃ file ∈ task.files, opens file.fileNumber = true ∧ row ∈ store.rowsOf file.fileNumber := by
  obtain ⟨sublist, covered⟩ := task.allInputs_spec
  rw [mem_openStreams_flatten_iff]
  constructor
  · intro found
    obtain ⟨file, mem, rest⟩ := found
    exact ⟨file, sublist.subset mem, rest⟩
  · intro found
    obtain ⟨file, mem, rest⟩ := found
    obtain ⟨other, otherMember, same⟩ := covered file mem
    refine ⟨other, otherMember, ?_⟩
    rw [same]
    exact rest

theorem length_openStreams_le
    (store : CompactionStore) (opens : Nat → Bool) (task : CompactionTask) :
    (store.openStreams opens task.allInputs).flatten.length ≤
      (task.files.flatMap fun file => store.rowsOf file.fileNumber).length := by
  have single : ∀ files : List ZoneSstMeta, (store.openStreams opens files).flatten.length ≤
      (files.flatMap fun file => store.rowsOf file.fileNumber).length := by
    intro files
    induction files with
    | nil => exact le_rfl
    | cons head tail ih =>
      rw [flatMap_cons, length_append]
      rw [openStreams] at ih ⊢
      rw [filterMap_cons]
      split
      · omega
      rename_i rows opened
      have sameRows : rows.length ≤ (store.rowsOf head.fileNumber).length := by
        by_cases opening : opens head.fileNumber = true
        · rw [if_pos opening] at opened
          rw [rowsOf, opened]
          exact le_rfl
        · rw [if_neg opening] at opened
          cases opened
      rw [filter_cons]
      split
      · rw [flatten_cons, length_append]
        omega
      · omega
  refine (single task.allInputs).trans ?_
  exact (task.allInputs_spec.1.flatMap _).length_le

end CompactionStore

/-! ## How a compaction ends -/

namespace CompactionStore

section Cases

variable {opts : CompactionOptions} {store : CompactionStore} {task : CompactionTask}
  {out : CompactionOutcome}

/-- The store after a compaction that stopped before the metadata update. -/
def abandoned (store : CompactionStore) (entry : DiskEntry) : CompactionStore :=
  { store with
    nextFileNumber := store.nextFileNumber + 1
    disk := update store.disk store.nextFileNumber entry }

def moved (opts : CompactionOptions) (store : CompactionStore) (task : CompactionTask)
    (out : CompactionOutcome) : CompactionStore :=
  let file := store.compactedFile opts task out
  { store with
    nextFileNumber := store.nextFileNumber + 1
    disk := update store.disk store.nextFileNumber (.complete file)
    engine := task.moveMetadata (task.outputMeta opts store.nextFileNumber file) store.engine }

def finished (opts : CompactionOptions) (store : CompactionStore) (task : CompactionTask)
    (out : CompactionOutcome) : CompactionStore :=
  removeFiles
    { store.moved opts task out with
      manifest := some (store.moved opts task out).engine.levels.persisted }
    out.removes (task.files.map fileNumber)

theorem doZoneCompaction_cases :
    ((out.output ≠ .complete ∨ (store.compactedFile opts task out).rows = []) ∧
      ∃ entry, (store.doZoneCompaction opts task out).1 = store.abandoned entry) ∨
    (out.output = .complete ∧ (store.compactedFile opts task out).rows ≠ [] ∧
      ((out.manifest ≠ .saved ∧
        store.doZoneCompaction opts task out = (store.moved opts task out, out.manifest.status)) ∨
      (out.manifest = .saved ∧
        store.doZoneCompaction opts task out = (store.finished opts task out, .ok ())))) := by
  rw [doZoneCompaction]
  dsimp only
  split
  · rename_i status notCreated
    refine Or.inl ⟨Or.inl (by rw [notCreated]; exact fun same => nomatch same), ?_⟩
    exact ⟨store.disk store.nextFileNumber, by rw [abandoned, update_eq_self]⟩
  · rename_i status incomplete
    exact Or.inl ⟨Or.inl (by rw [incomplete]; exact fun same => nomatch same), _, rfl⟩
  · rename_i complete
    have notSmall : decide (opts.lsm.sstFileSize (store.compactedFile opts task out) < 64) =
        false := by
      have atLeast := opts.hasHeader (store.compactedFile opts task out)
      exact decide_eq_false (by omega)
    rw [notSmall, Bool.or_false]
    split
    · rename_i noRows
      refine Or.inl ⟨Or.inr (isEmpty_iff.mp noRows), ?_⟩
      have sameDisk : (fun number =>
          if number ∈ [store.nextFileNumber] ∧ out.removes number = true then
            DiskEntry.absent
          else update store.disk store.nextFileNumber
            (.complete (store.compactedFile opts task out)) number) =
          update store.disk store.nextFileNumber
            (if out.removes store.nextFileNumber = true then .absent
            else .complete (store.compactedFile opts task out)) := by
        funext number
        by_cases same : number = store.nextFileNumber
        · subst same
          simp
        · simp [same]
      refine ⟨if out.removes store.nextFileNumber = true then .absent
        else .complete (store.compactedFile opts task out), ?_⟩
      rw [abandoned, ← sameDisk]
      rfl
    · rename_i someRows
      refine Or.inr ⟨complete, fun noRows => someRows (isEmpty_iff.mpr noRows), ?_⟩
      cases saved : out.manifest with
      | saved => exact Or.inr ⟨rfl, rfl⟩
      | notOpened => exact Or.inl ⟨by decide, rfl⟩
      | notRenamed => exact Or.inl ⟨by decide, rfl⟩

/-- The files of a task are listed at its levels, and numbers are distinct and below
the counter. -/
structure Lists (store : CompactionStore) (task : CompactionTask) : Prop where
  unique : store.engine.levels.Unique
  counted : ∀ file ∈ store.engine.levels.all, file.fileNumber < store.nextFileNumber
  inside : task.outputLevel < store.engine.levels.length
  inputs : ∀ file ∈ task.inputFiles, file ∈ store.engine.levels.files task.inputLevel
  overlapping : ∀ file ∈ task.overlappingFiles, file ∈ store.engine.levels.files task.outputLevel

theorem Lists.mem_all {store : CompactionStore} {task : CompactionTask} (lists : store.Lists task)
    {file : ZoneSstMeta} (mem : file ∈ task.files) : file ∈ store.engine.levels.all := by
  rcases mem_append.mp mem with isInput | isOverlap
  · exact mem_all_of_mem_files (lists.inputs file isInput)
  · exact mem_all_of_mem_files (lists.overlapping file isOverlap)

theorem Lists.output_not_mem
    {store : CompactionStore} {task : CompactionTask} (lists : store.Lists task) :
    store.nextFileNumber ∉ task.files.map fileNumber := by
  intro listed
  obtain ⟨file, mem, same⟩ := mem_map.mp listed
  have below := lists.counted file (lists.mem_all mem)
  omega

/-- The files listed after the metadata update: those that were listed and are not
part of the task, and the output. -/
theorem mem_all_moved_iff (lists : store.Lists task) {file : ZoneSstMeta} :
    file ∈ (store.moved opts task out).engine.levels.all ↔
      (file ∈ store.engine.levels.all ∧ file.fileNumber ∉ task.files.map fileNumber) ∨
      file = task.outputMeta opts store.nextFileNumber (store.compactedFile opts task out) := by
  have isNew : ∀ other ∈ store.engine.levels.files task.outputLevel,
      other.fileNumber ≠ (task.outputMeta opts store.nextFileNumber
        (store.compactedFile opts task out)).fileNumber := by
    intro other mem
    exact Nat.ne_of_lt (lists.counted other (mem_all_of_mem_files mem))
  rw [mem_all_iff, moved]
  dsimp only
  rw [CompactionTask.length_moveMetadata]
  constructor
  · intro found
    obtain ⟨level, levelInside, mem⟩ := found
    obtain ⟨place, notInput, notOverlap⟩ :=
      (CompactionTask.mem_files_moveMetadata lists.inside lists.unique.distinct isNew).mp mem
    rcases place with old | ⟨-, isOutput⟩
    · refine Or.inl ⟨mem_all_of_mem_files old, ?_⟩
      intro inTask
      obtain ⟨other, otherMember, same⟩ := mem_map.mp inTask
      rcases mem_append.mp otherMember with isInput | isOverlap
      · have sameLevel := lists.unique.oneLevel _ _ other (lists.inputs other isInput) file old same
        apply notInput sameLevel.symm
        rw [← same]
        exact mem_map_of_mem isInput
      · have sameLevel :=
          lists.unique.oneLevel _ _ other (lists.overlapping other isOverlap) file old same
        apply notOverlap sameLevel.symm
        rw [← same]
        exact mem_map_of_mem isOverlap
    · exact Or.inr isOutput
  · intro place
    have stays : file.fileNumber ∉ task.files.map fileNumber := by
      rcases place with ⟨-, notInTask⟩ | isOutput
      · exact notInTask
      · rw [isOutput]
        exact lists.output_not_mem
    rw [CompactionTask.files, map_append, mem_append, not_or] at stays
    rcases place with ⟨old, -⟩ | isOutput
    · obtain ⟨level, levelInside, mem⟩ := mem_all_iff.mp old
      exact ⟨level, levelInside,
        (CompactionTask.mem_files_moveMetadata lists.inside lists.unique.distinct isNew).mpr
          ⟨Or.inl mem, fun _ => stays.1, fun _ => stays.2⟩⟩
    · exact ⟨task.outputLevel, lists.inside,
        (CompactionTask.mem_files_moveMetadata lists.inside lists.unique.distinct isNew).mpr
          ⟨Or.inr ⟨rfl, isOutput⟩, fun _ => stays.1, fun _ => stays.2⟩⟩

theorem disk_moved {number : Nat} (old : number < store.nextFileNumber) :
    (store.moved opts task out).disk number = store.disk number :=
  update_of_ne (Nat.ne_of_lt old) _ _

theorem disk_moved_output :
    (store.moved opts task out).disk store.nextFileNumber =
      .complete (store.compactedFile opts task out) :=
  update_self _ _ _

theorem disk_finished {number : Nat} (kept : number ∉ task.files.map fileNumber) :
    (store.finished opts task out).disk number = (store.moved opts task out).disk number :=
  if_neg fun removed => kept removed.1

/-- After the metadata update the output is listed, whatever was deleted then. -/
structure Updated (opts : CompactionOptions) (store after : CompactionStore)
    (task : CompactionTask) (out : CompactionOutcome) : Prop where
  levels : after.engine.levels = (store.moved opts task out).engine.levels
  disk : ∀ number, after.disk number = (store.moved opts task out).disk number ∨
    number ∈ task.files.map fileNumber ∧ after.disk number = .absent
  next : after.nextFileNumber = store.nextFileNumber + 1

theorem updated_doZoneCompaction (complete : out.output = .complete)
    (someRows : (store.compactedFile opts task out).rows ≠ []) :
    store.Updated opts (store.doZoneCompaction opts task out).1 task out := by
  rcases doZoneCompaction_cases with ⟨stopped, -⟩ | ⟨-, -, ⟨-, res⟩ | ⟨-, res⟩⟩
  · rcases stopped with incomplete | noRows
    · exact absurd complete incomplete
    · exact absurd noRows someRows
  · rw [res]
    exact ⟨rfl, fun number => Or.inl rfl, rfl⟩
  · rw [res]
    refine ⟨rfl, fun number => ?_, rfl⟩
    by_cases removed : number ∈ task.files.map fileNumber ∧ out.removes number = true
    · exact Or.inr ⟨removed.1, if_pos removed⟩
    · exact Or.inl (if_neg removed)

section Updated

variable {after : CompactionStore} (updated : store.Updated opts after task out)
  (lists : store.Lists task)
include updated

theorem Updated.disk_other {number : Nat} (kept : number ∉ task.files.map fileNumber) :
    after.disk number = (store.moved opts task out).disk number :=
  (updated.disk number).resolve_right fun removed => kept removed.1

theorem Updated.rowsOf_other {number : Nat} (old : number < store.nextFileNumber)
    (kept : number ∉ task.files.map fileNumber) : after.rowsOf number = store.rowsOf number := by
  rw [rowsOf, updated.disk_other kept, disk_moved old]
  rfl

include lists

theorem Updated.mem_all_iff {file : ZoneSstMeta} :
    file ∈ after.engine.levels.all ↔
      (file ∈ store.engine.levels.all ∧ file.fileNumber ∉ task.files.map fileNumber) ∨
      file = task.outputMeta opts store.nextFileNumber (store.compactedFile opts task out) := by
  rw [updated.levels]
  exact mem_all_moved_iff lists

theorem Updated.rowsOf_output :
    after.rowsOf store.nextFileNumber = (store.compactedFile opts task out).rows := by
  rw [rowsOf, updated.disk_other lists.output_not_mem, disk_moved_output]
  rfl

end Updated

end Cases

end CompactionStore

end CedarGraph
